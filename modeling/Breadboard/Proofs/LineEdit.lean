import Breadboard.Proofs.LineEnds
import Breadboard.Proofs.LineRoundTrip

/-! Changing the operands of a line in place. The operands are found as they are when the line is
read, and everything else in the text stays: white space, commas and colons, the label, the opcode and
the comment. If the operands are changed to texts without separators and semicolons, the line is cut
as before, and has the changed operands. -/

set_option autoImplicit false

namespace Breadboard

namespace Line

def gapAfter (stop : Char → Bool) (cs : List Char) : List Char :=
  (fromFirst stop cs).takeWhile isSeparator

/-- Changes the first field of a text, and what follows the separators behind it. -/
def editField (stop : Char → Bool) (f : String → String) (edit : List Char → List Char)
    (cs : List Char) : List Char :=
  (f (String.ofList (before stop cs))).toList ++ (gapAfter stop cs ++ edit (afterField stop cs))

/-- Changes the operands of a body, the first field of which is the opcode. -/
def editBody (f : String → String) : List Char → List Char :=
  editField isWhite id (editField endsFirst f (editField isWhite f id))

def editCode (f : String → String) (code : List Char) : List Char :=
  if code.contains ':' then editField (· == ':') id (editBody f) code
  else code.takeWhile isWhite ++ editBody f (trimStart code)

def editOperands (f : String → String) (text : String) : String :=
  String.ofList
    (editCode f (before (· == ';') text.toList) ++ fromFirst (· == ';') text.toList)

def mapOperands (f : String → String) (l : Line) : Line :=
  { l with first := l.first.map f, second := l.second.map f }

/-- A change of operands that makes nothing but operands of them. -/
structure Rewrites (f : String → String) : Prop where
  empty : f "" = ""
  plain : ∀ s, f s = s ∨ Plain (f s)

/-- What a change of a part of a line leaves alone. -/
structure Keeps (s t : List Char) : Prop where
  free : ∀ c ∈ t, isSeparator c = true ∨ c = ';' → c ∈ s
  last : t.getLast? = some '\r' → s.getLast? = some '\r'
  nil_iff : t = [] ↔ s = []

theorem Keeps.refl (s : List Char) : Keeps s s := ⟨fun _ hc _ => hc, id, Iff.rfl⟩

theorem Keeps.append {s s' t t' : List Char} (h : Keeps s t) (h' : Keeps s' t') :
    Keeps (s ++ s') (t ++ t') := by
  refine ⟨?_, ?_, ?_⟩
  · intro c hc hmark
    rcases List.mem_append.mp hc with hc | hc
    · exact List.mem_append_left s' (h.free c hc hmark)
    · exact List.mem_append_right s (h'.free c hc hmark)
  · by_cases hnil : t' = []
    · rw [hnil, h'.nil_iff.mp hnil, List.append_nil, List.append_nil]
      exact h.last
    · rw [List.getLast?_append_of_ne_nil _ hnil,
        List.getLast?_append_of_ne_nil _ (mt h'.nil_iff.mpr hnil)]
      exact h'.last
  · rw [List.append_eq_nil_iff, List.append_eq_nil_iff, h.nil_iff, h'.nil_iff]

theorem Keeps.keepsEnd {s t : List Char} (h : Keeps s t) : Text.KeepsEnd s t :=
  ⟨fun hc => h.free _ hc (.inl rfl), h.last, h.nil_iff.mp⟩

theorem editField_nil (stop : Char → Bool) (f : String → String) (edit : List Char → List Char) :
    editField stop f edit [] = (f "").toList ++ edit [] := rfl

theorem editField_gap {stop : Char → Bool} (f : String → String) (edit : List Char → List Char)
    {s g t : List Char} (hs : ∀ c ∈ s, stop c = false) (hg : Gap stop g) (hne : g = [] → t = [])
    (ht : ∀ c ∈ t.head?, isSeparator c = false) :
    editField stop f edit (s ++ (g ++ t)) = (f (String.ofList s)).toList ++ (g ++ edit t) := by
  have hgap : gapAfter stop (s ++ (g ++ t)) = g := by
    unfold gapAfter
    rw [fromFirst_append hs (hg.stops_append hne)]
    exact takeWhile_append hg.separators ht
  unfold editField
  rw [hgap, before_gap hs hg hne, afterField_gap hs hg hne ht]

theorem editField_end {stop : Char → Bool} (f : String → String) (edit : List Char → List Char)
    {s g : List Char} (hs : ∀ c ∈ s, stop c = false) (hg : Gap stop g) :
    editField stop f edit (s ++ g) = (f (String.ofList s)).toList ++ (g ++ edit []) := by
  simpa using editField_gap f edit (t := []) hs hg (fun _ => rfl) (by simp)

theorem editCode_colon (f : String → String) {text gap body : List Char} (hcolon : ':' ∉ text)
    (hgap : ∀ c ∈ gap, isSeparator c = true) (hstart : ∀ c ∈ body.head?, isSeparator c = false) :
    editCode f (text ++ ':' :: (gap ++ body)) = text ++ ':' :: (gap ++ editBody f body) := by
  have hedit := editField_gap id (editBody f) (beq_eq_false_of_notMem hcolon) (Gap.colon hgap)
    (by simp) hstart
  unfold editCode
  rw [if_pos (by simp), ← List.cons_append, hedit, id_eq, String.toList_ofList, List.cons_append]

section Edit
variable {f : String → String} (hf : Rewrites f)
include hf

theorem Rewrites.keeps (s : String) : Keeps s.toList (f s).toList := by
  rcases hf.plain s with heq | hplain
  · rw [heq]
    exact .refl _
  · have hfree (c : Char) (hc : c ∈ (f s).toList) : ¬ (isSeparator c = true ∨ c = ';') := by
      simpa using hplain.free c hc
    refine ⟨fun c hc hmark => absurd hmark (hfree c hc), fun hlast => ?_, ?_⟩
    · exact absurd (.inl rfl) (hfree _ (List.mem_of_getLast? hlast))
    · rw [String.toList_eq_nil_iff, String.toList_eq_nil_iff]
      refine ⟨fun hnil => absurd hnil hplain.ne_empty, fun hs => ?_⟩
      rw [hs]
      exact hf.empty

theorem Rewrites.token {stop : Char → Bool} (hstop : ∀ c, stop c = true → isSeparator c = true)
    {s : String} (h : Token stop s.toList) : Token stop (f s).toList := by
  rcases hf.plain s with heq | hplain
  · rwa [heq]
  · refine ⟨mt String.toList_eq_nil_iff.mp hplain.ne_empty, fun c hc => ?_, fun c hc => ?_⟩
    · exact (hplain.free c (List.mem_of_mem_head? hc)).1
    · by_contra hc'
      have hsep := hstop c (by simpa using hc')
      rw [(hplain.free c hc).1] at hsep
      cases hsep

theorem keeps_editField (stop : Char → Bool) {edit : List Char → List Char}
    (hedit : ∀ cs, Keeps cs (edit cs)) (cs : List Char) : Keeps cs (editField stop f edit cs) := by
  have hcs : before stop cs ++ (gapAfter stop cs ++ afterField stop cs) = cs := by
    unfold gapAfter afterField before fromFirst
    rw [List.takeWhile_append_dropWhile, List.takeWhile_append_dropWhile]
  have hfield := hf.keeps (String.ofList (before stop cs))
  rw [String.toList_ofList] at hfield
  have h := hfield.append ((Keeps.refl (gapAfter stop cs)).append (hedit (afterField stop cs)))
  rwa [hcs] at h

theorem keeps_editBody (cs : List Char) : Keeps cs (editBody f cs) := by
  have hid : Rewrites id := ⟨rfl, fun _ => .inl rfl⟩
  exact keeps_editField hid _ (keeps_editField hf _ (keeps_editField hf _ Keeps.refl)) cs

theorem keeps_editCode (cs : List Char) : Keeps cs (editCode f cs) := by
  have hid : Rewrites id := ⟨rfl, fun _ => .inl rfl⟩
  unfold editCode
  split
  · exact keeps_editField hid _ (keeps_editBody hf) cs
  · have h := (Keeps.refl (cs.takeWhile isWhite)).append (keeps_editBody hf (trimStart cs))
    rwa [trimStart, List.takeWhile_append_dropWhile] at h

theorem keeps_editOperands (text : String) : Keeps text.toList (editOperands f text).toList := by
  have hcode := keeps_editCode hf (before (· == ';') text.toList)
  have h := hcode.append (Keeps.refl (fromFirst (· == ';') text.toList))
  unfold editOperands
  rw [String.toList_ofList]
  rwa [before, fromFirst, List.takeWhile_append_dropWhile] at h

theorem Body.edit {body : List Char} {op : String} {first second : Option String}
    (h : Body body op first second) :
    Body (editBody f body) op (first.map f) (second.map f) := by
  have hnil (stop : Char → Bool) {edit : List Char → List Char} (hedit : edit [] = []) :
      editField stop f edit [] = [] := by
    rw [editField_nil, hf.empty, hedit]
    rfl
  have hsecond : editField isWhite f id [] = [] := hnil isWhite rfl
  have hfirst := hnil endsFirst hsecond
  unfold editBody
  cases h with
  | blank =>
    rw [editField_nil, hfirst]
    exact .blank
  | opcode hne hop h₁ =>
    rw [editField_end id _ hop h₁, hfirst, List.append_nil, id, String.toList_ofList]
    exact .opcode hne hop h₁
  | first hne hop h₁ hne₁ hp h₂ =>
    rw [editField_gap id _ hop h₁ (absurd · hne₁) (hp.start_append _),
      editField_end f _ hp.free h₂, hsecond, List.append_nil, id, String.toList_ofList,
      String.ofList_toList]
    exact .first hne hop h₁ hne₁ (hf.token (fun _ => isSeparator_of_endsFirst) hp) h₂
  | second hne hop h₁ hne₁ hp h₂ hne₂ hq h₃ =>
    rw [editField_gap id _ hop h₁ (absurd · hne₁) (hp.start_append _),
      editField_gap f _ hp.free h₂ (absurd · hne₂) (hq.start_append _),
      editField_end f _ hq.free h₃, id, id, List.append_nil, String.toList_ofList,
      String.ofList_toList, String.ofList_toList]
    exact .second hne hop h₁ hne₁ (hf.token (fun _ => isSeparator_of_endsFirst) hp) h₂ hne₂
      (hf.token (fun _ => isSeparator_of_isWhite) hq) h₃

theorem Code.edit {code body : List Char} {label : Option String} (h : Code code label body)
    (hhead : (editBody f body).head? = body.head?) :
    Code (editCode f code) label (editBody f body) := by
  cases h with
  | @unlabelled w body hcolon hw hstart =>
    have hcode : editCode f (w ++ body) = w ++ editBody f body := by
      unfold editCode trimStart
      rw [if_neg (by simpa using hcolon), takeWhile_append hw hstart, dropWhile_append hw hstart]
    rw [hcode]
    refine .unlabelled (fun hc => hcolon ?_) hw (by rwa [hhead])
    exact ((Keeps.refl w).append (keeps_editBody hf body)).free _ hc (.inl rfl)
  | bare hw hgap hstart =>
    have hcolon := colon_notMem hw (v := []) (n := []) (by simp) (by simp)
    rw [List.append_nil, List.append_nil] at hcolon
    rw [editCode_colon f hcolon hgap hstart]
    exact .bare hw hgap (by rwa [hhead])
  | labelled hw hne hname hv hgap hstart =>
    have hcolon := colon_notMem hw hv fun hc => by cases (hname _ hc).1
    rw [editCode_colon f hcolon hgap hstart]
    exact .labelled hw hne hname hv hgap (by rwa [hhead])

theorem spells_editOperands {text : String} {l : Line} (h : Spells text l) :
    Spells (editOperands f text) (l.mapOperands f) := by
  obtain ⟨code, body, htext, hcode, hbody⟩ := h
  have hedit := hbody.edit hf
  refine ⟨editCode f code, editBody f body, ⟨fun hc => htext.free ?_, ?_⟩, ?_, hedit⟩
  · exact (keeps_editCode hf code).free _ hc (.inr rfl)
  · unfold editOperands
    rw [String.toList_ofList, htext.eq, before_comment htext.free, fromFirst_comment htext.free]
    rfl
  · exact hcode.edit hf (by rw [hedit.head?_eq, hbody.head?_eq])

theorem parse_editOperands {text : String} {l : Line} (h : parse text = .ok l) :
    parse (editOperands f text) = .ok (l.mapOperands f) :=
  parse_of_spells (spells_editOperands hf (spells_of_parse h))

end Edit

end Line

end Breadboard
