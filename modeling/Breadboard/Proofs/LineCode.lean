import Mathlib.Data.List.DropRight
import Breadboard.Proofs.Comments
import Breadboard.Proofs.LineGrammar

/-! The part of a line that counts. What a line says stands in front of its comment, and the white space
at the ends of that part says nothing: in front of it the reader skips white space, and behind the last
field it skips separators, which end every field but a label. So what is read, and what fault a line has,
is settled by the part that is left, and of the comment nothing shows but the comment itself. -/

set_option autoImplicit false

namespace Breadboard

namespace Line

variable {stop : Char → Bool}

/-- The white space that is trimmed off the ends of a line. No line holds a line feed. -/
def isIndent (c : Char) : Bool := c == ' ' || c == '\t' || c == '\r'

/-- The part of a line that counts: what is in front of its first semicolon, without the white space at
both ends. -/
def significant (text : String) : List Char :=
  ((before (· == ';') text.toList).dropWhile isIndent).rdropWhile isIndent

def bare (text : String) : String := String.ofList (significant text)

theorem isWhite_of_isIndent {c : Char} (h : isIndent c = true) : isWhite c = true := by
  simp only [isIndent, isWhite, Bool.or_eq_true] at h ⊢
  exact .inl h

theorem exists_significant (text : String) : ∃ w v : List Char,
    before (· == ';') text.toList = w ++ (significant text ++ v) ∧
      (∀ c ∈ w, isWhite c = true) ∧ ∀ c ∈ v, isWhite c = true := by
  refine ⟨(before (· == ';') text.toList).takeWhile isIndent,
    ((before (· == ';') text.toList).dropWhile isIndent).rtakeWhile isIndent, ?_, ?_, ?_⟩
  · rw [significant, List.rdropWhile_append_rtakeWhile, List.takeWhile_append_dropWhile]
  · exact fun c hc => isWhite_of_isIndent (List.mem_takeWhile_imp hc)
  · exact fun c hc => isWhite_of_isIndent (List.mem_rtakeWhile_imp hc)

/-! ### White space behind the last field -/

/-- A rest with more text behind it. When nothing is left, the text behind has been skipped as well. -/
def withTail (v cs : List Char) : List Char := if cs = [] then [] else cs ++ v

theorem isEmpty_withTail (v cs : List Char) : (withTail v cs).isEmpty = cs.isEmpty := by
  unfold withTail
  cases cs <;> rfl

section Tail
variable {v : List Char} (hv : ∀ c ∈ v, isWhite c = true)
include hv

theorem dropWhile_withTail {p : Char → Bool} (hp : ∀ c, isWhite c = true → p c = true)
    (cs : List Char) : (cs ++ v).dropWhile p = withTail v (cs.dropWhile p) := by
  unfold withTail
  rw [List.dropWhile_append]
  have hnil : v.dropWhile p = [] := List.dropWhile_eq_nil_iff.mpr fun c hc => hp c (hv c hc)
  simp only [List.isEmpty_iff, hnil]

section Stop
variable (hstop : ∀ c, isWhite c = true → stop c = true) (cs : List Char)
include hstop

theorem stops_of_white : ∀ c ∈ v.head?, stop c = true :=
  fun c hc => hstop c (hv c (List.mem_of_mem_head? hc))

theorem before_append_white : before stop (cs ++ v) = before stop cs := by
  obtain ⟨s, rest, rfl, hs, hrest⟩ := exists_skip (fun c => !stop c) cs
  simp only [Bool.not_eq_true', Bool.not_eq_false'] at hs hrest
  rw [List.append_assoc, before_append hs hrest, before_append hs]
  intro c hc
  cases rest with
  | nil => exact stops_of_white hv hstop c hc
  | cons d rest => exact hrest c hc

theorem afterField_append_white :
    afterField stop (cs ++ v) = withTail v (afterField stop cs) := by
  obtain ⟨s, rest, rfl, hs, hrest⟩ := exists_skip (fun c => !stop c) cs
  simp only [Bool.not_eq_true', Bool.not_eq_false'] at hs hrest
  have hstops : ∀ c ∈ (rest ++ v).head?, stop c = true := by
    intro c hc
    cases rest with
    | nil => exact stops_of_white hv hstop c hc
    | cons d rest => exact hrest c hc
  unfold afterField
  rw [List.append_assoc, fromFirst_append hs hstops, fromFirst_append hs hrest]
  exact dropWhile_withTail hv (fun _ => isSeparator_of_isWhite) rest

theorem before_withTail : before stop (withTail v cs) = before stop cs := by
  unfold withTail
  split
  · next h => rw [h]
  · exact before_append_white hv hstop cs

theorem afterField_withTail :
    afterField stop (withTail v cs) = withTail v (afterField stop cs) := by
  by_cases h : cs = []
  · subst h
    rfl
  · rw [withTail, if_neg h]
    exact afterField_append_white hv hstop cs

end Stop

theorem readFields_withTail (label comment : Option String) (cs : List Char) :
    readFields label comment (withTail v cs) = readFields label comment cs := by
  have hwhite : ∀ c, isWhite c = true → isWhite c = true := fun _ h => h
  have hfirst : ∀ c, isWhite c = true → endsFirst c = true := fun c h => by simp [endsFirst, h]
  have hseparator : ∀ c, isWhite c = true → isSeparator c = true := fun _ => isSeparator_of_isWhite
  unfold readFields
  simp only [before_withTail hv hwhite, before_withTail hv hfirst, before_withTail hv hseparator,
    afterField_withTail hv hwhite, afterField_withTail hv hfirst, isEmpty_withTail]

theorem readCode_append_white (comment : Option String) (cs : List Char) :
    readCode comment (cs ++ v) = readCode comment cs := by
  by_cases hcolon : ':' ∈ cs
  · obtain ⟨front, rest, rfl, hfront⟩ := List.eq_append_cons_of_mem hcolon
    have hfree := beq_eq_false_of_notMem hfront
    have hhead (ds : List Char) : ∀ c ∈ (':' :: ds).head?, (c == ':') = true := by simp
    have hbefore : before (· == ':') (front ++ ':' :: (rest ++ v)) =
        before (· == ':') (front ++ ':' :: rest) := by
      rw [before_append hfree (hhead _), before_append hfree (hhead _)]
    have hafter : afterField (· == ':') (front ++ ':' :: (rest ++ v)) =
        withTail v (afterField (· == ':') (front ++ ':' :: rest)) := by
      unfold afterField
      rw [fromFirst_append hfree (hhead _), fromFirst_append hfree (hhead _)]
      exact dropWhile_withTail hv (fun _ => isSeparator_of_isWhite) (':' :: rest)
    unfold readCode
    rw [if_pos (by simp), if_pos (by simp), List.append_assoc, List.cons_append, hbefore, hafter]
    simp only [readFields_withTail hv]
  · have hwhite : ':' ∉ v := fun hc => by cases hv _ hc
    have htrim : trimStart (cs ++ v) = withTail v (trimStart cs) :=
      dropWhile_withTail hv (fun _ h => h) cs
    unfold readCode
    rw [if_neg (by simp [hcolon, hwhite]), if_neg (by simp [hcolon]), htrim, readFields_withTail hv]

theorem readCode_white_append (comment : Option String) (cs : List Char) :
    readCode comment (v ++ cs) = readCode comment cs := by
  have hdrop (ds : List Char) : trimStart (v ++ ds) = trimStart ds :=
    List.dropWhile_append_of_pos hv
  have hfree : ∀ c ∈ v, (c == ':') = false :=
    beq_eq_false_of_notMem fun hc => by cases hv _ hc
  have hcontains : (v ++ cs).contains ':' = cs.contains ':' := by
    have hcolon : ':' ∉ v := fun hc => by cases hv _ hc
    simp [hcolon]
  have hpos : ∀ c ∈ v, (!(c == ':')) = true := fun c hc => by rw [hfree c hc]; rfl
  have hbefore : before (· == ':') (v ++ cs) = v ++ before (· == ':') cs :=
    List.takeWhile_append_of_pos hpos
  have hafter : fromFirst (· == ':') (v ++ cs) = fromFirst (· == ':') cs :=
    List.dropWhile_append_of_pos hpos
  unfold readCode readLabel afterField
  rw [hcontains, hbefore, hafter, hdrop, hdrop]

end Tail

/-! ### The comment -/

theorem readFields_recomment (f : Option String → Option String) (label comment : Option String)
    (cs : List Char) : (readFields label comment cs).map (recomment f) =
      readFields label (f comment) cs := by
  simp only [readFields]
  repeat' split
  all_goals rfl

theorem readCode_recomment (f : Option String → Option String) (comment : Option String)
    (cs : List Char) : (readCode comment cs).map (recomment f) = readCode (f comment) cs := by
  unfold readCode
  split
  · cases readLabel (before (· == ':') cs) with
    | error e => rfl
    | ok label => exact readFields_recomment f label comment _
  · exact readFields_recomment f none comment _

/-- A line is read as its part that counts is read, but for the comment. -/
theorem parse_bare (text : String) :
    parse (bare text) = (parse text).map (recomment fun _ => none) := by
  obtain ⟨code, comment, htext⟩ := exists_commented text
  obtain ⟨w, v, hcode, hw, hv⟩ := exists_significant text
  have hbefore : before (· == ';') text.toList = code := by
    rw [htext.eq]
    exact before_comment htext.free comment
  rw [hbefore] at hcode
  have hfree : ';' ∉ significant text := fun hc => htext.free (by simp [hcode, hc])
  have hbare : (bare text).toList = significant text ++ (none : Option String).elim [] fun s =>
      ';' :: s.toList := by simp [bare]
  rw [parse_eq htext.free htext.eq, parse_eq hfree hbare, readCode_recomment, hcode,
    readCode_white_append hw, readCode_append_white hv]

end Line

theorem Statement.parse_bare (text : String) :
    Statement.parse (Line.bare text) =
      (Statement.parse text).map (Statement.recomment fun _ => none) := by
  unfold Statement.parse
  rw [Line.parse_bare]
  cases Line.parse text with
  | error e => rfl
  | ok line => exact Statement.ofLine_recomment _ line

end Breadboard
