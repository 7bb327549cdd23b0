import Breadboard.Proofs.LineGrammar

/-! Canonical texts that are read back. The fields of a line that was read are as a canonical text
needs them, with one exception: behind a bare colon, which declares nothing and is not written again,
a field may hold a colon, and the first such colon of the canonical text makes a label of what is in
front of it. So a line that was read is read back unless it has no label and a colon in a field. -/

set_option autoImplicit false

namespace Breadboard

namespace Line

namespace Code
variable {code body : List Char} {label : Option String} (h : Code code label body)
include h

theorem mem_of_label : ∀ s ∈ label, ∀ c ∈ s.toList, c ∈ code := by
  cases h with
  | unlabelled | bare => simp
  | labelled =>
    rintro s ⟨⟩ c hc
    simp [hc]

theorem mem_of_body : ∀ c ∈ body, c ∈ code := by
  intro c hc
  cases h <;> simp [hc]

theorem label_free : ∀ s ∈ label, s ≠ "" ∧ ∀ c ∈ s.toList, isForbidden c = false := by
  cases h with
  | unlabelled | bare => simp
  | labelled hw hne hname =>
    rintro s ⟨⟩
    exact ⟨hne, fun c hc => isForbidden_eq_false_iff.mpr (hname c hc)⟩

theorem start_of_label : label.isSome → ∀ c ∈ body.head?, isSeparator c = false := by
  cases h with
  | unlabelled | bare => simp
  | labelled _ _ _ _ _ hstart => exact fun _ => hstart

/-- A colon in front of a body is taken for the one behind a label. -/
theorem start_ne_colon : ∀ c ∈ body.head?, c ≠ ':' := by
  rintro c hc rfl
  cases h with
  | unlabelled hcolon =>
    exact hcolon (List.mem_append_right _ (List.mem_of_mem_head? hc))
  | bare _ _ hstart => cases hstart _ hc
  | labelled _ _ _ _ _ hstart => cases hstart _ hc

/-- Without a label, a colon has nothing but white space in front of it. -/
theorem start_of_colon (hlabel : label = none) (hcolon : ':' ∈ code) :
    ∃ c ∈ code.head?, isWhite c = true ∨ c = ':' := by
  cases h with
  | unlabelled hfree => exact absurd hcolon hfree
  | labelled => cases hlabel
  | @bare w _ _ hw =>
    cases w with
    | nil => exact ⟨':', rfl, .inr rfl⟩
    | cons c w => exact ⟨c, rfl, .inl (hw c List.mem_cons_self)⟩

end Code

namespace Body
variable {body : List Char} {op : String} {first second : Option String}
  (h : Body body op first second)
include h

theorem mem_of_field : ∀ s ∈ op :: (first.toList ++ second.toList), ∀ c ∈ s.toList, c ∈ body := by
  intro s hs c hc
  cases h with
  | blank =>
    obtain rfl : s = "" := by simpa using hs
    exact hc
  | opcode =>
    obtain rfl := List.mem_singleton.mp hs
    simp [hc]
  | first =>
    rcases List.mem_cons.mp hs with rfl | hs
    · simp [hc]
    · obtain rfl := List.mem_singleton.mp hs
      simp [hc]
  | second =>
    simp only [Option.toList_some, List.mem_cons, List.singleton_append, List.not_mem_nil,
      or_false] at hs
    rcases hs with rfl | rfl | rfl <;> simp [hc]

theorem opcode_free : ∀ c ∈ op.toList, isWhite c = false := by
  cases h with
  | blank => simp
  | opcode _ hop | first _ hop | second _ hop => exact hop

theorem head?_eq : body.head? = op.toList.head? := by
  cases h with
  | blank => rfl
  | opcode hne | first hne | second hne =>
    exact List.head?_append_of_ne_nil _ (mt String.toList_eq_nil_iff.mp hne)

theorem params_eq_nil : op = "" → first.toList ++ second.toList = [] := by
  intro hop
  cases h with
  | blank | opcode => rfl
  | first hne | second hne => exact absurd hop hne

theorem first_of_second : second.isSome → first.isSome := by
  cases h <;> simp

theorem token_of_param : ∀ s ∈ first.toList ++ second.toList, Token isWhite s.toList := by
  have hweak {p : String} (hp : Token endsFirst p.toList) : Token isWhite p.toList :=
    ⟨hp.ne_nil, hp.start, fun c hc => by
      have hends := hp.free c hc
      simp only [endsFirst, Bool.or_eq_false_iff] at hends
      exact hends.1⟩
  cases h with
  | blank | opcode => simp
  | first _ _ _ _ hp => simpa using hweak hp
  | second _ _ _ _ hp _ _ hq => simpa using ⟨hweak hp, hq⟩

theorem first_free : ∀ s ∈ first, ',' ∉ s.toList := by
  cases h with
  | blank | opcode => simp
  | first _ _ _ _ hp | second _ _ _ _ hp =>
    rintro s ⟨⟩ hc
    cases hp.free _ hc

end Body

theorem Code.mem_of_part {code body : List Char} {label : Option String} {op : String}
    {first second : Option String} (h : Code code label body) (hbody : Body body op first second) :
    ∀ s ∈ label.toList ++ op :: (first.toList ++ second.toList), ∀ c ∈ s.toList, c ∈ code := by
  intro s hs c hc
  rcases List.mem_append.mp hs with hs | hs
  · exact h.mem_of_label s (Option.mem_toList.mp hs) c hc
  · exact h.mem_of_body c (hbody.mem_of_field s hs c hc)

theorem Excess.mem_of_token {body : List Char} {token : String} (h : Excess body token) :
    ∀ c ∈ token.toList, c ∈ body := by
  intro c hc
  cases h
  simp [hc]

theorem canonical_of_spells {text : String} {l : Line} (h : Spells text l)
    (hcolon : l.label = none → ∀ s ∈ l.opcode :: l.params, ':' ∉ s.toList) : l.Canonical := by
  obtain ⟨code, body, htext, hcode, hbody⟩ := h
  refine ⟨fun s hs hc => htext.free (hcode.mem_of_part hbody s hs _ hc), hcolon, hcode.label_free,
    hbody.opcode_free, ?_, hbody.params_eq_nil, hbody.first_of_second, hbody.token_of_param,
    hbody.first_free⟩
  intro hlabel c hc
  exact hcode.start_of_label hlabel c (by rwa [hbody.head?_eq])

/-- The canonical lines are exactly the ones that are read back from their text. -/
theorem parse_render_eq_ok_iff {l : Line} : parse l.render = .ok l ↔ l.Canonical := by
  refine ⟨fun h => ?_, Canonical.parse_render⟩
  have hspells := spells_of_parse h
  refine canonical_of_spells hspells fun hlabel s hs hc => ?_
  obtain ⟨code, body, htext, hcode, hbody⟩ := hspells
  obtain ⟨gap, tail, _, hgap, htail, hrender⟩ := exists_toList_render hbody.params_eq_nil
  have heq : code = l.renderCode.toList ++ tail := by
    rw [hgap hlabel, hlabel, htext.eq] at hrender
    exact List.append_cancel_right hrender
  have hcolon : ':' ∈ code := by
    rw [heq]
    exact List.mem_append_left _ (mem_renderCode_of_field hs hc)
  -- The canonical text begins with the opcode, and so with neither white space nor a colon.
  obtain ⟨c, hhead, hblank⟩ := hcode.start_of_colon hlabel hcolon
  rw [heq] at hhead
  have hop := head?_code hbody.params_eq_nil htail c hhead
  rcases hblank with hwhite | rfl
  · rw [hbody.opcode_free c (List.mem_of_mem_head? hop)] at hwhite
    cases hwhite
  · exact hcode.start_ne_colon _ (by rwa [hbody.head?_eq]) rfl

theorem isWhite_eq_false_iff {c : Char} : isWhite c = false ↔ c ∉ [' ', '\t', '\r', '\n'] := by
  simp [isWhite, and_assoc]

theorem isForbidden_eq_false_iff_notMem {c : Char} :
    isForbidden c = false ↔ c ∉ [' ', '\t', '\r', '\n', ':', ',', '#', '['] := by
  simp [isForbidden, isSeparator, isWhite, and_assoc]

theorem start_iff {cs : List Char} (hfree : ∀ c ∈ cs, isWhite c = false) :
    (∀ c ∈ cs.head?, isSeparator c = false) ↔ cs.head? ≠ some ':' ∧ cs.head? ≠ some ',' := by
  constructor
  · intro h
    constructor
    · intro hc
      cases h _ hc
    · intro hc
      cases h _ hc
  · rintro ⟨hcolon, hcomma⟩ c hc
    refine isSeparator_eq_false_iff.mpr ⟨hfree c (List.mem_of_mem_head? hc), ?_, ?_⟩
    · rintro rfl
      exact hcolon hc
    · rintro rfl
      exact hcomma hc

theorem token_isWhite_iff {s : String} : Token isWhite s.toList ↔
    s ≠ "" ∧ (∀ c ∈ s.toList, isWhite c = false) ∧
      s.toList.head? ≠ some ':' ∧ s.toList.head? ≠ some ',' := by
  constructor
  · intro h
    exact ⟨mt String.toList_eq_nil_iff.mpr h.ne_nil, h.free, (start_iff h.free).mp h.start⟩
  · rintro ⟨hne, hfree, hstart⟩
    exact ⟨mt String.toList_eq_nil_iff.mp hne, (start_iff hfree).mpr hstart, hfree⟩

/-- Which lines are read back from their canonical text, for lines with any fields whatever. The comment
is not restricted. -/
theorem parse_render_iff_fields (l : Line) : parse l.render = .ok l ↔
    (∀ s ∈ l.label.toList ++ l.opcode :: l.params, ';' ∉ s.toList) ∧
    (∀ s ∈ l.label, s ≠ "" ∧
      ∀ c ∈ s.toList, c ∉ [' ', '\t', '\r', '\n', ':', ',', '#', '[']) ∧
    (∀ c ∈ l.opcode.toList, c ∉ [' ', '\t', '\r', '\n']) ∧
    (l.opcode = "" → l.first = none ∧ l.second = none) ∧
    (l.second.isSome → l.first.isSome) ∧
    (∀ s ∈ l.params, s ≠ "" ∧ (∀ c ∈ s.toList, c ∉ [' ', '\t', '\r', '\n']) ∧
      s.toList.head? ≠ some ':' ∧ s.toList.head? ≠ some ',') ∧
    (∀ s ∈ l.first, ',' ∉ s.toList) ∧
    (l.label.isSome → l.opcode.toList.head? ≠ some ':' ∧ l.opcode.toList.head? ≠ some ',') ∧
    (l.label = none → ∀ s ∈ l.opcode :: l.params, ':' ∉ s.toList) := by
  have hparams : l.params = [] ↔ l.first = none ∧ l.second = none := by
    simp [params]
  rw [parse_render_eq_ok_iff]
  simp only [← isWhite_eq_false_iff, ← isForbidden_eq_false_iff_notMem, ← hparams,
    ← token_isWhite_iff]
  constructor
  · intro h
    exact ⟨h.semicolon, h.label, h.opcode, h.params_eq_nil, h.first_of_second, h.param, h.first,
      fun hlabel => (start_iff h.opcode).mp (h.opcode_start hlabel), h.colon⟩
  · rintro ⟨hsemicolon, hlabel, hop, hempty, hsecond, hparam, hfirst, hstart, hcolon⟩
    exact ⟨hsemicolon, hcolon, hlabel, hop, fun hlabel => (start_iff hop).mpr (hstart hlabel),
      hempty, hsecond, hparam, hfirst⟩

/-- Without a first operand, the comma in front of the second one is taken for a part of the opcode. -/
example : parse (render ⟨none, "JC", none, some "1", none⟩) =
    .ok ⟨none, "JC,", some "1", none, none⟩ := by decide

/-- A line that was read is read back from its canonical text exactly if it has a label or no colon
in its fields. -/
theorem parse_render_of_parse {text : String} {l : Line} (h : parse text = .ok l) :
    parse l.render = .ok l ↔ (l.label = none → ∀ s ∈ l.opcode :: l.params, ':' ∉ s.toList) := by
  rw [parse_render_eq_ok_iff]
  exact ⟨Canonical.colon, canonical_of_spells (spells_of_parse h)⟩

/-- Colons in the fields do no harm behind a label. -/
theorem parse_render_of_parse_label :
    parse "x :,A:B ,[:]" = .ok ⟨some "x", "A:B", some "[:]", none, none⟩ ∧
      parse (render ⟨some "x", "A:B", some "[:]", none, none⟩) =
        .ok ⟨some "x", "A:B", some "[:]", none, none⟩ := by
  have hparse : parse "x :,A:B ,[:]" = .ok ⟨some "x", "A:B", some "[:]", none, none⟩ := by decide
  exact ⟨hparse, (parse_render_of_parse hparse).mpr (by simp)⟩

/-- A line without a label whose canonical text declares one. -/
theorem parse_render_bare_colon : parse ": x:HLT" = .ok ⟨none, "x:HLT", none, none, none⟩ ∧
    parse (render ⟨none, "x:HLT", none, none, none⟩) = .ok ⟨some "x", "HLT", none, none, none⟩ := by
  decide

end Line

end Breadboard
