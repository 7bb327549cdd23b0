import Breadboard.Proofs.Except
import Breadboard.Proofs.LineText

/-! The grammar of lines. A line is a text in front of a comment: white space, perhaps a name and a
colon, and a body of up to three fields with separators behind them. Reading a line accepts the texts
of the grammar and finds their parts. Every other text either has something in front of its first
colon that is no name, or goes on behind the second operand, and the fault cites it.

The grammar is a relation, so a text could have several readings. That it has at most one, and one or
a fault in any case, is a consequence. -/

set_option autoImplicit false

namespace Breadboard

namespace Line

variable {stop : Char → Bool}

/-- A text is some code without a semicolon, and a semicolon and a comment behind it if there is one. -/
structure Commented (text : String) (code : List Char) (comment : Option String) : Prop where
  free : ';' ∉ code
  eq : text.toList = code ++ comment.elim [] fun s => ';' :: s.toList

/-- The code of a line with the label that it declares and the body behind it. -/
inductive Code : List Char → Option String → List Char → Prop
  | unlabelled {w body : List Char} (hcolon : ':' ∉ w ++ body) (hw : ∀ c ∈ w, isWhite c = true)
      (hstart : ∀ c ∈ body.head?, isWhite c = false) : Code (w ++ body) none body
  /-- A colon with nothing in front of it. -/
  | bare {w gap body : List Char} (hw : ∀ c ∈ w, isWhite c = true)
      (hgap : ∀ c ∈ gap, isSeparator c = true) (hstart : ∀ c ∈ body.head?, isSeparator c = false) :
      Code (w ++ ':' :: (gap ++ body)) none body
  | labelled {w v gap body : List Char} {name : String} (hw : ∀ c ∈ w, isWhite c = true)
      (hne : name ≠ "") (hname : ∀ c ∈ name.toList, isSeparator c = false ∧ c ≠ '#' ∧ c ≠ '[')
      (hv : ∀ c ∈ v, isWhite c = true) (hgap : ∀ c ∈ gap, isSeparator c = true)
      (hstart : ∀ c ∈ body.head?, isSeparator c = false) :
      Code ((w ++ (name.toList ++ v)) ++ ':' :: (gap ++ body)) (some name) body

/-- A body with the opcode and the operands in it. Only behind the last field may the gap be empty. -/
inductive Body : List Char → String → Option String → Option String → Prop
  | blank : Body [] "" none none
  | opcode {op : String} {g₁ : List Char} (hne : op ≠ "") (hop : ∀ c ∈ op.toList, isWhite c = false)
      (h₁ : Gap isWhite g₁) : Body (op.toList ++ g₁) op none none
  | first {op p : String} {g₁ g₂ : List Char} (hne : op ≠ "")
      (hop : ∀ c ∈ op.toList, isWhite c = false) (h₁ : Gap isWhite g₁) (hne₁ : g₁ ≠ [])
      (hp : Token endsFirst p.toList) (h₂ : Gap endsFirst g₂) :
      Body (op.toList ++ (g₁ ++ (p.toList ++ g₂))) op (some p) none
  | second {op p q : String} {g₁ g₂ g₃ : List Char} (hne : op ≠ "")
      (hop : ∀ c ∈ op.toList, isWhite c = false) (h₁ : Gap isWhite g₁) (hne₁ : g₁ ≠ [])
      (hp : Token endsFirst p.toList) (h₂ : Gap endsFirst g₂) (hne₂ : g₂ ≠ [])
      (hq : Token isWhite q.toList) (h₃ : Gap isWhite g₃) :
      Body (op.toList ++ (g₁ ++ (p.toList ++ (g₂ ++ (q.toList ++ g₃))))) op (some p) (some q)

/-- A body that goes on with a token behind its second operand. -/
inductive Excess : List Char → String → Prop
  | third {op p q t : String} {g₁ g₂ g₃ rest : List Char} (hne : op ≠ "")
      (hop : ∀ c ∈ op.toList, isWhite c = false) (h₁ : Gap isWhite g₁) (hne₁ : g₁ ≠ [])
      (hp : Token endsFirst p.toList) (h₂ : Gap endsFirst g₂) (hne₂ : g₂ ≠ [])
      (hq : Token isWhite q.toList) (h₃ : Gap isWhite g₃) (hne₃ : g₃ ≠ [])
      (ht : Token isSeparator t.toList) (hrest : ∀ c ∈ rest.head?, isSeparator c = true) :
      Excess (op.toList ++ (g₁ ++ (p.toList ++ (g₂ ++ (q.toList ++ (g₃ ++ (t.toList ++ rest))))))) t

/-- The grammar: a text that makes up a line. -/
def Spells (text : String) (l : Line) : Prop :=
  ∃ code body, Commented text code l.comment ∧ Code code l.label body ∧
    Body body l.opcode l.first l.second

/-- A text that makes up no line, and why. -/
inductive Fails : String → ParseError → Prop
  | label {text name : String} {code w v rest : List Char} {comment : Option String}
      (htext : Commented text code comment)
      (hcode : code = (w ++ (name.toList ++ v)) ++ ':' :: rest) (hw : ∀ c ∈ w, isWhite c = true)
      (hv : ∀ c ∈ v, isWhite c = true) (hcolon : ':' ∉ name.toList)
      (hstart : ∀ c ∈ name.toList.head?, isWhite c = false)
      (hlast : ∀ c ∈ name.toList.getLast?, isWhite c = false)
      (hbad : ∃ c ∈ name.toList, isSeparator c = true ∨ c = '#' ∨ c = '[') :
      Fails text (.invalidLabel name)
  | excess {text token : String} {code body : List Char} {label comment : Option String}
      (htext : Commented text code comment) (hcode : Code code label body)
      (hbody : Excess body token) : Fails text (.trailingInput token)

/-- The front of a text up to the first character that `p` does not hold of. -/
theorem exists_skip (p : Char → Bool) (cs : List Char) : ∃ s rest, cs = s ++ rest ∧
    (∀ c ∈ s, p c = true) ∧ ∀ c ∈ rest.head?, p c = false := by
  refine ⟨cs.takeWhile p, cs.dropWhile p, List.takeWhile_append_dropWhile.symm, ?_, ?_⟩
  · exact List.all_eq_true.mp List.all_takeWhile
  · intro c hc
    have h := List.head?_dropWhile_not p cs
    rw [Option.mem_def.mp hc] at h
    exact h

/-! ### What is read from the texts of the grammar -/

theorem readCode_of_code (comment : Option String) {code body : List Char} {label : Option String}
    (h : Code code label body) : readCode comment code = readFields label comment body := by
  cases h with
  | unlabelled hcolon hw hstart => exact readCode_unlabelled hcolon hw hstart
  | bare hw hgap hstart =>
    rename_i w gap
    have hcolon : ':' ∉ w := fun hc => by cases hw _ hc
    have hlabel : readLabel w = .ok none := by
      have h := readLabel_append (v := []) (n := []) hw (by simp) (by simp) (by simp)
      simpa using h
    rw [readCode_colon comment hcolon hgap hstart, hlabel]
    rfl
  | labelled hw hne hname hv hgap hstart =>
    exact readCode_labelled comment hw hv hne
      (fun c hc => isForbidden_eq_false_iff.mpr (hname c hc)) hgap hstart

theorem readFields_of_body (label comment : Option String) {body : List Char} {op : String}
    {first second : Option String} (h : Body body op first second) :
    readFields label comment body = .ok ⟨label, op, first, second, comment⟩ := by
  cases h with
  | blank => rfl
  | opcode _ hop h₁ => simpa using readFields_opcode label comment hop h₁
  | first _ hop h₁ hne₁ hp h₂ => simpa using readFields_first label comment hop h₁ hne₁ hp h₂
  | second _ hop h₁ hne₁ hp h₂ hne₂ hq h₃ =>
    simpa using readFields_second label comment hop h₁ hne₁ hp h₂ hne₂ hq h₃

theorem readFields_of_excess (label comment : Option String) {body : List Char} {token : String}
    (h : Excess body token) : readFields label comment body = .error (.trailingInput token) := by
  obtain ⟨_, hop, h₁, hne₁, hp, h₂, hne₂, hq, h₃, hne₃, ht, hrest⟩ := h
  simpa using readFields_third label comment hop h₁ hne₁ hp h₂ hne₂ hq h₃ hne₃ ht hrest

theorem parse_of_spells {text : String} {l : Line} (h : Spells text l) : parse text = .ok l := by
  obtain ⟨code, body, htext, hcode, hbody⟩ := h
  rw [parse_eq htext.free htext.eq, readCode_of_code _ hcode, readFields_of_body _ _ hbody]

theorem parse_of_fails {text : String} {e : ParseError} (h : Fails text e) :
    parse text = .error e := by
  cases h with
  | @label name code w v rest comment htext hcode hw hv hcolon hstart hlast hbad =>
    obtain ⟨gap, body, rfl, hgap, hbody⟩ := exists_skip isSeparator rest
    have hany : name.toList.any isForbidden = true := by
      obtain ⟨c, hc, hbad⟩ := hbad
      exact List.any_eq_true.mpr ⟨c, hc, by simpa [isForbidden, or_assoc] using hbad⟩
    rw [parse_eq htext.free htext.eq, hcode,
      readCode_colon _ (colon_notMem hw hv hcolon) hgap hbody,
      readLabel_append hw hv hstart hlast, hany]
    simp [Except.bind]
  | excess htext hcode hbody =>
    rw [parse_eq htext.free htext.eq, readCode_of_code _ hcode, readFields_of_excess _ _ hbody]

/-! ### Every text is in the grammar or has a fault -/

theorem exists_commented (text : String) : ∃ code comment, Commented text code comment := by
  obtain ⟨code, rest, htext, hfree, hrest⟩ := exists_skip (· != ';') text.toList
  have hcode : ';' ∉ code := fun hc => by simpa using hfree _ hc
  cases rest with
  | nil => exact ⟨code, none, hcode, htext⟩
  | cons c comment =>
    obtain rfl : c = ';' := by simpa using hrest c rfl
    exact ⟨code, some (String.ofList comment), hcode, by simpa using htext⟩

theorem exists_trim (cs : List Char) : ∃ (w v : List Char) (name : String),
    cs = w ++ (name.toList ++ v) ∧ (∀ c ∈ w, isWhite c = true) ∧ (∀ c ∈ v, isWhite c = true) ∧
    (∀ c ∈ name.toList.head?, isWhite c = false) ∧
    ∀ c ∈ name.toList.getLast?, isWhite c = false := by
  obtain ⟨w, rest, rfl, hw, hrest⟩ := exists_skip isWhite cs
  obtain ⟨v, n, hreverse, hv, hn⟩ := exists_skip isWhite rest.reverse
  obtain rfl : rest = n.reverse ++ v.reverse := by
    rw [← List.reverse_append, ← hreverse, List.reverse_reverse]
  refine ⟨w, v.reverse, String.ofList n.reverse, by simp, hw, by simpa using hv, ?_, ?_⟩
  · rw [String.toList_ofList]
    intro c hc
    exact hrest c (by rw [List.head?_append, Option.mem_def.mp hc]; rfl)
  · rw [String.toList_ofList, List.getLast?_reverse]
    exact hn

/-- Some code has a label and a body, or what is in front of its first colon is no name. -/
theorem exists_code_or_fails {text : String} {code : List Char} {comment : Option String}
    (h : Commented text code comment) :
    (∃ label body, Code code label body ∧ ∀ c ∈ body.head?, isWhite c = false) ∨
      ∃ e, Fails text e := by
  by_cases hcolon : ':' ∈ code
  · obtain ⟨front, rest, hcode, hfront⟩ := List.eq_append_cons_of_mem hcolon
    obtain ⟨w, v, name, rfl, hw, hv, hstart, hlast⟩ := exists_trim front
    -- The text in front of the first colon is the name that a label has to be, or nothing.
    by_cases hbad : ∃ c ∈ name.toList, isSeparator c = true ∨ c = '#' ∨ c = '['
    · have hname : ':' ∉ name.toList := fun hc => hfront (by simp [hc])
      exact .inr ⟨_, .label h hcode hw hv hname hstart hlast hbad⟩
    have hname : ∀ c ∈ name.toList, isSeparator c = false ∧ c ≠ '#' ∧ c ≠ '[' := by
      intro c hc
      simpa using fun h => hbad ⟨c, hc, h⟩
    obtain ⟨gap, body, rfl, hgap, hbody⟩ := exists_skip isSeparator rest
    have hwhite : ∀ c ∈ body.head?, isWhite c = false := fun c hc =>
      (isSeparator_eq_false_iff.mp (hbody c hc)).1
    subst hcode
    left
    by_cases hne : name = ""
    · subst hne
      have hblank : ∀ c ∈ w ++ v, isWhite c = true := fun c hc =>
        (List.mem_append.mp hc).elim (hw c) (hv c)
      exact ⟨none, body, .bare hblank hgap hbody, hwhite⟩
    · exact ⟨some name, body, .labelled hw hne hname hv hgap hbody, hwhite⟩
  · obtain ⟨w, body, rfl, hw, hbody⟩ := exists_skip isWhite code
    exact .inl ⟨none, body, .unlabelled hcolon hw hbody, hbody⟩

/-- A text cut into a field and the rest behind it, where only at the end of the text there need not
be a gap between them. -/
structure Cut (stop : Char → Bool) (cs : List Char) (field : String) (g rest : List Char) : Prop where
  eq : cs = field.toList ++ (g ++ rest)
  free : ∀ c ∈ field.toList, stop c = false
  gap : Gap stop g
  gap_ne_nil : rest ≠ [] → g ≠ []
  start : ∀ c ∈ rest.head?, isSeparator c = false

theorem exists_cut (hstop : ∀ c, stop c = true → isSeparator c = true) (cs : List Char) :
    ∃ field g rest, Cut stop cs field g rest := by
  obtain ⟨s, tail, rfl, hs, htail⟩ := exists_skip (fun c => !stop c) cs
  obtain ⟨g, rest, rfl, hg, hrest⟩ := exists_skip isSeparator tail
  simp only [Bool.not_eq_true', Bool.not_eq_false'] at hs htail
  refine ⟨String.ofList s, g, rest, by simp, by simpa using hs, ⟨?_, hg⟩, ?_, hrest⟩
  · intro c hc
    exact htail c (by rw [List.head?_append, Option.mem_def.mp hc]; rfl)
  · rintro hne rfl
    -- Without a gap the rest begins with what ends the field, which is a separator.
    obtain ⟨c, rest, rfl⟩ := List.exists_cons_of_ne_nil hne
    have hc := hstop c (htail c rfl)
    rw [hrest c rfl] at hc
    cases hc

theorem Cut.field_ne_nil {cs g rest : List Char} {field : String} (h : Cut stop cs field g rest)
    (hne : cs ≠ []) (hstart : ∀ c ∈ cs.head?, stop c = false) : field.toList ≠ [] := by
  intro hnil
  have hcs := h.eq
  rw [hnil, List.nil_append] at hcs
  cases g with
  | nil =>
    have hrest : rest ≠ [] := by simpa [hcs] using hne
    exact h.gap_ne_nil hrest rfl
  | cons c g =>
    have hc := h.gap.stops c rfl
    rw [hstart c (by simp [hcs])] at hc
    cases hc

theorem Cut.token {cs g rest : List Char} {field : String} (h : Cut stop cs field g rest)
    (hstop : ∀ c, stop c = true → isSeparator c = true) (hne : cs ≠ [])
    (hstart : ∀ c ∈ cs.head?, isSeparator c = false) : Token stop field.toList := by
  have hfield : field.toList ≠ [] := by
    refine h.field_ne_nil hne fun c hc => ?_
    by_contra hs
    have hsep := hstop c (by simpa using hs)
    rw [hstart c hc] at hsep
    cases hsep
  refine ⟨hfield, fun c hc => hstart c ?_, h.free⟩
  rw [h.eq, List.head?_append_of_ne_nil _ hfield]
  exact hc

theorem isSeparator_of_endsFirst {c : Char} (h : endsFirst c = true) : isSeparator c = true := by
  simp only [endsFirst, Bool.or_eq_true] at h
  simp only [isSeparator, Bool.or_eq_true]
  exact h.elim (fun h => .inl (.inl h)) .inr

/-- A body is in the grammar, or goes on behind its second operand. -/
theorem exists_body_or_excess {cs : List Char} (hstart : ∀ c ∈ cs.head?, isWhite c = false) :
    (∃ op first second, Body cs op first second) ∨ ∃ token, Excess cs token := by
  by_cases hcs : cs = []
  · subst hcs
    exact .inl ⟨"", none, none, .blank⟩
  -- Each cut takes off one field and the gap behind it, and the body ends where nothing is left.
  obtain ⟨op, g₁, rest₁, hcut₁⟩ := exists_cut (fun _ => isSeparator_of_isWhite) cs
  have hop : op ≠ "" := mt String.toList_eq_nil_iff.mpr (hcut₁.field_ne_nil hcs hstart)
  rw [hcut₁.eq]
  by_cases hrest₁ : rest₁ = []
  · subst hrest₁
    rw [List.append_nil]
    exact .inl ⟨op, none, none, .opcode hop hcut₁.free hcut₁.gap⟩
  have hne₁ := hcut₁.gap_ne_nil hrest₁
  obtain ⟨p, g₂, rest₂, hcut₂⟩ := exists_cut (fun _ => isSeparator_of_endsFirst) rest₁
  have hp := hcut₂.token (fun _ => isSeparator_of_endsFirst) hrest₁ hcut₁.start
  rw [hcut₂.eq]
  by_cases hrest₂ : rest₂ = []
  · subst hrest₂
    rw [List.append_nil]
    exact .inl ⟨op, some p, none, .first hop hcut₁.free hcut₁.gap hne₁ hp hcut₂.gap⟩
  have hne₂ := hcut₂.gap_ne_nil hrest₂
  obtain ⟨q, g₃, rest₃, hcut₃⟩ := exists_cut (fun _ => isSeparator_of_isWhite) rest₂
  have hq := hcut₃.token (fun _ => isSeparator_of_isWhite) hrest₂ hcut₂.start
  rw [hcut₃.eq]
  by_cases hrest₃ : rest₃ = []
  · subst hrest₃
    rw [List.append_nil]
    exact .inl ⟨op, some p, some q,
      .second hop hcut₁.free hcut₁.gap hne₁ hp hcut₂.gap hne₂ hq hcut₃.gap⟩
  have hne₃ := hcut₃.gap_ne_nil hrest₃
  have hstop : ∀ c, isSeparator c = true → isSeparator c = true := fun _ h => h
  obtain ⟨t, g₄, rest₄, hcut₄⟩ := exists_cut hstop rest₃
  have ht := hcut₄.token hstop hrest₃ hcut₃.start
  have htail : ∀ c ∈ (g₄ ++ rest₄).head?, isSeparator c = true :=
    hcut₄.gap.stops_append fun hnil => by_contra fun hne => hcut₄.gap_ne_nil hne hnil
  rw [hcut₄.eq]
  exact .inr ⟨t,
    .third hop hcut₁.free hcut₁.gap hne₁ hp hcut₂.gap hne₂ hq hcut₃.gap hne₃ ht htail⟩

theorem spells_or_fails (text : String) : (∃ l, Spells text l) ∨ ∃ e, Fails text e := by
  obtain ⟨code, comment, htext⟩ := exists_commented text
  rcases exists_code_or_fails htext with ⟨label, body, hcode, hstart⟩ | hfails
  · rcases exists_body_or_excess hstart with ⟨op, first, second, hbody⟩ | ⟨token, hexcess⟩
    · exact .inl ⟨⟨label, op, first, second, comment⟩, code, body, htext, hcode, hbody⟩
    · exact .inr ⟨_, .excess htext hcode hexcess⟩
  · exact .inr hfails

theorem spells_of_parse {text : String} {l : Line} (h : parse text = .ok l) : Spells text l :=
  (Except.eq_ok_iff_of_total (fun _ => parse_of_spells) (fun _ => parse_of_fails)
    (spells_or_fails text)).mp h

theorem fails_of_parse {text : String} {e : ParseError} (h : parse text = .error e) :
    Fails text e :=
  (Except.eq_error_iff_of_total (fun _ => parse_of_spells) (fun _ => parse_of_fails)
    (spells_or_fails text)).mp h

/-- Reading a line accepts exactly the texts of the grammar, with the parts that they have there, and
answers every other text with its fault. -/
theorem parse_eq_iff_grammar (text : String) :
    (∀ l, parse text = .ok l ↔ Spells text l) ∧ ∀ e, parse text = .error e ↔ Fails text e :=
  ⟨fun _ => ⟨spells_of_parse, parse_of_spells⟩, fun _ => ⟨fails_of_parse, parse_of_fails⟩⟩

end Line

end Breadboard
