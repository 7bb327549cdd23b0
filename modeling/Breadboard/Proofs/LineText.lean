import Breadboard.Proofs.TextLines
import Breadboard.Source.Line

/-! The text of lines. A field is read up to the first character that ends it, and the separators
behind it are skipped, so fields that are put together with separators are cut apart again. A line
whose fields cannot be taken for anything else is read back from its canonical text. -/

set_option autoImplicit false

namespace Breadboard

namespace Line

variable {stop : Char → Bool}

theorem isSeparator_of_isWhite {c : Char} (h : isWhite c = true) : isSeparator c = true := by
  simp [isSeparator, h]

theorem isSeparator_eq_false_iff {c : Char} :
    isSeparator c = false ↔ isWhite c = false ∧ c ≠ ':' ∧ c ≠ ',' := by
  simp [isSeparator, and_assoc]

theorem isForbidden_eq_false_iff {c : Char} :
    isForbidden c = false ↔ isSeparator c = false ∧ c ≠ '#' ∧ c ≠ '[' := by
  simp [isForbidden, and_assoc]

/-- A text that a field can be: no separator in front, and nothing that ends the field. -/
structure Token (stop : Char → Bool) (t : List Char) : Prop where
  ne_nil : t ≠ []
  start : ∀ c ∈ t.head?, isSeparator c = false
  free : ∀ c ∈ t, stop c = false

/-- What can stand behind a field: separators, the first of which ends the field. -/
structure Gap (stop : Char → Bool) (g : List Char) : Prop where
  stops : ∀ c ∈ g.head?, stop c = true
  separators : ∀ c ∈ g, isSeparator c = true

theorem Token.start_append {t : List Char} (h : Token stop t) (g : List Char) :
    ∀ c ∈ (t ++ g).head?, isSeparator c = false := by
  rw [List.head?_append_of_ne_nil _ h.ne_nil]
  exact h.start

theorem Gap.of_isWhite {g : List Char} (h : ∀ c ∈ g, isWhite c = true) : Gap isWhite g :=
  ⟨fun c hc => h c (List.mem_of_mem_head? hc), fun c hc => isSeparator_of_isWhite (h c hc)⟩

theorem dropWhile_append {p : Char → Bool} {s t : List Char} (hs : ∀ c ∈ s, p c = true)
    (ht : ∀ c ∈ t.head?, p c = false) : (s ++ t).dropWhile p = t := by
  rw [List.dropWhile_append_of_pos hs]
  cases t with
  | nil => rfl
  | cons c t => simp [ht c rfl]

theorem takeWhile_append {p : Char → Bool} {s t : List Char} (hs : ∀ c ∈ s, p c = true)
    (ht : ∀ c ∈ t.head?, p c = false) : (s ++ t).takeWhile p = s := by
  rw [List.takeWhile_append_of_pos hs]
  cases t with
  | nil => simp
  | cons c t => simp [ht c rfl]

theorem fromFirst_append {s t : List Char} (hs : ∀ c ∈ s, stop c = false)
    (ht : ∀ c ∈ t.head?, stop c = true) : fromFirst stop (s ++ t) = t := by
  apply dropWhile_append
  · intro c hc
    rw [hs c hc]
    rfl
  · intro c hc
    rw [ht c hc]
    rfl

theorem before_append {s t : List Char} (hs : ∀ c ∈ s, stop c = false)
    (ht : ∀ c ∈ t.head?, stop c = true) : before stop (s ++ t) = s := by
  apply takeWhile_append
  · intro c hc
    rw [hs c hc]
    rfl
  · intro c hc
    rw [ht c hc]
    rfl

theorem beq_eq_false_of_notMem {d : Char} {cs : List Char} (h : d ∉ cs) :
    ∀ c ∈ cs, (c == d) = false := by
  intro c hc
  simpa using fun hc' : c = d => h (hc' ▸ hc)

theorem Gap.colon {gap : List Char} (hgap : ∀ c ∈ gap, isSeparator c = true) :
    Gap (· == ':') (':' :: gap) :=
  ⟨by simp, List.forall_mem_cons.mpr ⟨rfl, hgap⟩⟩

section Gap
variable {s g t : List Char} (hs : ∀ c ∈ s, stop c = false) (hg : Gap stop g)
  (hne : g = [] → t = [])
include hg hne

theorem Gap.stops_append : ∀ c ∈ (g ++ t).head?, stop c = true := by
  cases g with
  | nil => rw [hne rfl]; simp
  | cons c g => exact hg.stops

include hs

theorem before_gap : before stop (s ++ (g ++ t)) = s := before_append hs (hg.stops_append hne)

theorem afterField_gap (ht : ∀ c ∈ t.head?, isSeparator c = false) :
    afterField stop (s ++ (g ++ t)) = t := by
  unfold afterField
  rw [fromFirst_append hs (hg.stops_append hne)]
  exact dropWhile_append hg.separators ht

omit hne

theorem before_end : before stop (s ++ g) = s := before_append hs hg.stops

theorem afterField_end : afterField stop (s ++ g) = [] := by
  simpa using afterField_gap (t := []) hs hg (fun _ => rfl) (by simp)

end Gap

section Fields
variable (label comment : Option String) {op p q g₁ g₂ g₃ : List Char}
  (hop : ∀ c ∈ op, isWhite c = false) (h₁ : Gap isWhite g₁)

include hop h₁

theorem readFields_opcode : readFields label comment (op ++ g₁) =
    .ok ⟨label, String.ofList op, none, none, comment⟩ := by
  unfold readFields
  rw [before_end hop h₁, afterField_end hop h₁]
  rfl

variable (hne₁ : g₁ ≠ []) (hp : Token endsFirst p) (h₂ : Gap endsFirst g₂)
include hne₁ hp h₂

theorem readFields_first : readFields label comment (op ++ (g₁ ++ (p ++ g₂))) =
    .ok ⟨label, String.ofList op, some (String.ofList p), none, comment⟩ := by
  have hempty : (p ++ g₂).isEmpty = false := by simp [hp.ne_nil]
  unfold readFields
  rw [before_gap hop h₁ (absurd · hne₁), afterField_gap hop h₁ (absurd · hne₁) (hp.start_append _)]
  simp only [hempty, before_end hp.free h₂, afterField_end hp.free h₂]
  rfl

theorem readFields_second (hne₂ : g₂ ≠ []) (hq : Token isWhite q) (h₃ : Gap isWhite g₃) :
    readFields label comment (op ++ (g₁ ++ (p ++ (g₂ ++ (q ++ g₃))))) =
      .ok ⟨label, String.ofList op, some (String.ofList p), some (String.ofList q), comment⟩ := by
  have hempty : (p ++ (g₂ ++ (q ++ g₃))).isEmpty = false := by simp [hp.ne_nil]
  have hempty' : (q ++ g₃).isEmpty = false := by simp [hq.ne_nil]
  unfold readFields
  rw [before_gap hop h₁ (absurd · hne₁), afterField_gap hop h₁ (absurd · hne₁) (hp.start_append _)]
  simp only [hempty, before_gap hp.free h₂ (absurd · hne₂),
    afterField_gap hp.free h₂ (absurd · hne₂) (hq.start_append _), hempty', before_end hq.free h₃,
    afterField_end hq.free h₃]
  rfl

theorem readFields_third {t rest : List Char} (hne₂ : g₂ ≠ []) (hq : Token isWhite q)
    (h₃ : Gap isWhite g₃) (hne₃ : g₃ ≠ []) (ht : Token isSeparator t)
    (hrest : ∀ c ∈ rest.head?, isSeparator c = true) :
    readFields label comment (op ++ (g₁ ++ (p ++ (g₂ ++ (q ++ (g₃ ++ (t ++ rest))))))) =
      .error (.trailingInput (String.ofList t)) := by
  have hempty : (p ++ (g₂ ++ (q ++ (g₃ ++ (t ++ rest))))).isEmpty = false := by simp [hp.ne_nil]
  have hempty' : (q ++ (g₃ ++ (t ++ rest))).isEmpty = false := by simp [hq.ne_nil]
  have hempty'' : (t ++ rest).isEmpty = false := by simp [ht.ne_nil]
  unfold readFields
  rw [before_gap hop h₁ (absurd · hne₁), afterField_gap hop h₁ (absurd · hne₁) (hp.start_append _)]
  simp only [hempty, before_gap hp.free h₂ (absurd · hne₂),
    afterField_gap hp.free h₂ (absurd · hne₂) (hq.start_append _), hempty',
    before_gap hq.free h₃ (absurd · hne₃),
    afterField_gap hq.free h₃ (absurd · hne₃) (ht.start_append _), hempty'',
    before_append ht.free hrest]
  rfl

end Fields

section Comment
variable {code : List Char} (hcode : ';' ∉ code) (comment : Option String)
include hcode

theorem before_comment :
    before (· == ';') (code ++ comment.elim [] fun s => ';' :: s.toList) = code :=
  before_append (beq_eq_false_of_notMem hcode) (by cases comment <;> simp)

theorem fromFirst_comment :
    fromFirst (· == ';') (code ++ comment.elim [] fun s => ';' :: s.toList) =
      comment.elim [] fun s => ';' :: s.toList :=
  fromFirst_append (beq_eq_false_of_notMem hcode) (by cases comment <;> simp)

end Comment

theorem parse_eq {text : String} {code : List Char} {comment : Option String}
    (hcode : ';' ∉ code)
    (htext : text.toList = code ++ comment.elim [] (fun s => ';' :: s.toList)) :
    parse text = readCode comment code := by
  unfold parse
  rw [htext, before_comment hcode, fromFirst_comment hcode]
  cases comment <;> simp

theorem trim_append {w n v : List Char} (hw : ∀ c ∈ w, isWhite c = true)
    (hv : ∀ c ∈ v, isWhite c = true) (hstart : ∀ c ∈ n.head?, isWhite c = false)
    (hlast : ∀ c ∈ n.getLast?, isWhite c = false) : trimEnd (trimStart (w ++ (n ++ v))) = n := by
  unfold trimEnd trimStart
  cases n with
  | nil =>
    have hall : ∀ c ∈ w ++ v, isWhite c = true := fun c hc =>
      (List.mem_append.mp hc).elim (hw c) (hv c)
    have hnil : (w ++ v).dropWhile isWhite = [] := by
      simpa using dropWhile_append (t := []) hall (by simp)
    rw [List.nil_append, hnil]
    rfl
  | cons d n =>
    have hlast : ∀ c ∈ (d :: n).reverse.head?, isWhite c = false := by
      rw [List.head?_reverse]
      exact hlast
    rw [dropWhile_append (t := d :: n ++ v) hw hstart, List.reverse_append,
      dropWhile_append (by simpa using hv) hlast, List.reverse_reverse]

theorem readLabel_append {w n v : List Char} (hw : ∀ c ∈ w, isWhite c = true)
    (hv : ∀ c ∈ v, isWhite c = true) (hstart : ∀ c ∈ n.head?, isWhite c = false)
    (hlast : ∀ c ∈ n.getLast?, isWhite c = false) : readLabel (w ++ (n ++ v)) =
      if n.any isForbidden then .error (.invalidLabel (String.ofList n))
      else if n.isEmpty then .ok none else .ok (some (String.ofList n)) := by
  unfold readLabel
  rw [trim_append hw hv hstart hlast]

theorem isWhite_of_isForbidden {c : Char} (h : isForbidden c = false) : isWhite c = false :=
  (isSeparator_eq_false_iff.mp (isForbidden_eq_false_iff.mp h).1).1

theorem readLabel_name {w v : List Char} {s : String} (hw : ∀ c ∈ w, isWhite c = true)
    (hv : ∀ c ∈ v, isWhite c = true) (hne : s ≠ "")
    (h : ∀ c ∈ s.toList, isForbidden c = false) :
    readLabel (w ++ (s.toList ++ v)) = .ok (some s) := by
  have hwhite : ∀ c ∈ s.toList, isWhite c = false := fun c hc => isWhite_of_isForbidden (h c hc)
  have hany : s.toList.any isForbidden = false := by
    rw [List.any_eq_false]
    exact fun c hc => by simp [h c hc]
  have hempty : s.toList.isEmpty = false := by simpa using hne
  rw [readLabel_append hw hv (fun c hc => hwhite c (List.mem_of_mem_head? hc))
    (fun c hc => hwhite c (List.mem_of_getLast? hc)), hany, hempty]
  simp

theorem readCode_unlabelled {comment : Option String} {w body : List Char}
    (hcolon : ':' ∉ w ++ body) (hw : ∀ c ∈ w, isWhite c = true)
    (hstart : ∀ c ∈ body.head?, isWhite c = false) :
    readCode comment (w ++ body) = readFields none comment body := by
  have htrim : trimStart (w ++ body) = body := dropWhile_append hw hstart
  unfold readCode
  rw [if_neg (by simpa using hcolon), htrim]

theorem readCode_colon (comment : Option String) {text gap body : List Char} (hcolon : ':' ∉ text)
    (hgap : ∀ c ∈ gap, isSeparator c = true) (hstart : ∀ c ∈ body.head?, isSeparator c = false) :
    readCode comment (text ++ ':' :: (gap ++ body)) =
      (readLabel text).bind fun label => readFields label comment body := by
  have hfree := beq_eq_false_of_notMem hcolon
  have hgap := Gap.colon hgap
  unfold readCode
  rw [if_pos (by simp), ← List.cons_append, before_gap hfree hgap (by simp),
    afterField_gap hfree hgap (by simp) hstart]
  cases readLabel text <;> rfl

theorem colon_notMem {w v n : List Char} (hw : ∀ c ∈ w, isWhite c = true)
    (hv : ∀ c ∈ v, isWhite c = true) (hn : ':' ∉ n) : ':' ∉ w ++ (n ++ v) := by
  intro hc
  rcases List.mem_append.mp hc with hc | hc
  · cases hw _ hc
  rcases List.mem_append.mp hc with hc | hc
  · exact hn hc
  · cases hv _ hc

theorem readCode_labelled (comment : Option String) {w v gap body : List Char} {s : String}
    (hw : ∀ c ∈ w, isWhite c = true) (hv : ∀ c ∈ v, isWhite c = true) (hne : s ≠ "")
    (hs : ∀ c ∈ s.toList, isForbidden c = false) (hgap : ∀ c ∈ gap, isSeparator c = true)
    (hstart : ∀ c ∈ body.head?, isSeparator c = false) :
    readCode comment ((w ++ (s.toList ++ v)) ++ ':' :: (gap ++ body)) =
      readFields (some s) comment body := by
  have hcolon : ':' ∉ s.toList := fun hc => by cases hs _ hc
  rw [readCode_colon comment (colon_notMem hw hv hcolon) hgap hstart,
    readLabel_name hw hv hne hs]
  rfl

def params (l : Line) : List String := l.first.toList ++ l.second.toList

/-- What makes a line one that is read back from its canonical text. The comment can be anything. -/
structure Canonical (l : Line) : Prop where
  semicolon : ∀ s ∈ l.label.toList ++ l.opcode :: l.params, ';' ∉ s.toList
  colon : l.label = none → ∀ s ∈ l.opcode :: l.params, ':' ∉ s.toList
  label : ∀ s ∈ l.label, s ≠ "" ∧ ∀ c ∈ s.toList, isForbidden c = false
  opcode : ∀ c ∈ l.opcode.toList, isWhite c = false
  opcode_start : l.label.isSome → ∀ c ∈ l.opcode.toList.head?, isSeparator c = false
  params_eq_nil : l.opcode = "" → l.params = []
  first_of_second : l.second.isSome → l.first.isSome
  param : ∀ s ∈ l.params, Token isWhite s.toList
  first : ∀ s ∈ l.first, ',' ∉ s.toList

theorem mem_renderCode {l : Line} {c : Char} (hc : c ∈ l.renderCode.toList) :
    c = ' ' ∨ c = ',' ∨ ∃ s ∈ l.opcode :: l.params, c ∈ s.toList := by
  cases hp : l.first <;> cases hq : l.second <;> simp [renderCode, params, hp, hq] at hc ⊢ <;> grind

theorem mem_renderCode_of_field {l : Line} {s : String} (hs : s ∈ l.opcode :: l.params) {c : Char}
    (hc : c ∈ s.toList) : c ∈ l.renderCode.toList := by
  simp only [params, List.mem_cons, List.mem_append, Option.mem_toList] at hs
  rcases hs with rfl | hs | hs
  · simp [renderCode, hc]
  · simp [renderCode, hs, hc]
  · simp [renderCode, hs, hc]

section Render
variable {l : Line} (h : l.opcode = "" → l.params = [])
include h

theorem renderCode_of_opcode (hop : l.opcode = "") : l.renderCode = "" := by
  have hparams := h hop
  simp only [params, List.append_eq_nil_iff, Option.toList_eq_nil_iff] at hparams
  simp [renderCode, hop, hparams.1, hparams.2]

/-- What stands between the parts of a canonical text, which may be missing, is white space. -/
theorem exists_toList_render : ∃ gap tail : List Char, (∀ c ∈ gap ++ tail, c = ' ') ∧
    (l.label = none → gap = []) ∧ (l.opcode = "" → tail = []) ∧
    l.render.toList = l.label.elim [] (fun s => s.toList ++ [':']) ++
      (gap ++ (l.renderCode.toList ++ tail)) ++ l.comment.elim [] (fun s => ';' :: s.toList) := by
  by_cases hop : l.opcode = ""
  · have hempty : l.isEmpty = true := by simp [isEmpty, hop]
    refine ⟨if l.label.isSome ∧ l.comment.isSome then [' '] else [], [], ?_, ?_, fun _ => rfl, ?_⟩
    · split <;> simp
    · intro hl
      simp [hl]
    · cases hl : l.label <;> cases hc : l.comment <;>
        simp [render, hl, hc, hempty, renderCode_of_opcode h hop]
  · have hempty : l.isEmpty = false := by simp [isEmpty, hop]
    refine ⟨if l.label.isSome then [' '] else [], if l.comment.isSome then [' '] else [], ?_, ?_,
      fun h => absurd h hop, ?_⟩
    · split <;> split <;> simp
    · intro hl
      simp [hl]
    · cases hl : l.label <;> cases hc : l.comment <;> simp [render, hl, hc, hempty]

theorem head?_code {tail : List Char} (htail : l.opcode = "" → tail = []) :
    ∀ c ∈ (l.renderCode.toList ++ tail).head?, c ∈ l.opcode.toList.head? := by
  by_cases hop : l.opcode = ""
  · simp [renderCode_of_opcode h hop, htail hop]
  · obtain ⟨c, cs, hcs⟩ := List.exists_cons_of_ne_nil (mt String.toList_eq_nil_iff.mp hop)
    simp [renderCode, hcs]

end Render

/-- The code of a canonical text has only the characters that the fields have, and what separates
them. -/
theorem notMem_code {l : Line} {gap tail : List Char} (hblank : ∀ c ∈ gap ++ tail, c = ' ') {d : Char}
    (hd : d ≠ ' ') (hd' : d ≠ ',') (hfields : ∀ s ∈ l.opcode :: l.params, d ∉ s.toList) :
    d ∉ gap ++ (l.renderCode.toList ++ tail) := by
  have hgap : d ∉ gap ++ tail := fun hc => hd (hblank d hc)
  have hcode : d ∉ l.renderCode.toList := by
    intro hc
    rcases mem_renderCode hc with hc | hc | ⟨s, hs, hc⟩
    · exact hd hc
    · exact hd' hc
    · exact hfields s hs hc
  simp only [List.mem_append, not_or] at hgap ⊢
  exact ⟨hgap.1, hcode, hgap.2⟩

namespace Canonical
variable {l : Line} (h : l.Canonical)
include h

theorem readFields_renderCode (label comment : Option String) {tail : List Char}
    (htail : ∀ c ∈ tail, isWhite c = true) :
    readFields label comment (l.renderCode.toList ++ tail) =
      .ok ⟨label, l.opcode, l.first, l.second, comment⟩ := by
  have hgap := Gap.of_isWhite htail
  have hone : Gap isWhite [' '] := ⟨by simp [isWhite], by simp [isSeparator, isWhite]⟩
  have htwo : Gap endsFirst [',', ' '] := ⟨by simp [endsFirst], by simp [isSeparator, isWhite]⟩
  have hgap' : Gap endsFirst tail :=
    ⟨fun c hc => by simp [endsFirst, hgap.stops c hc], hgap.separators⟩
  have hfirst (p : String) (hp : l.first = some p) : Token endsFirst p.toList := by
    have ht := h.param p (by simp [params, hp])
    have hcomma := h.first p hp
    refine ⟨ht.ne_nil, ht.start, fun c hc => ?_⟩
    have hne : c ≠ ',' := fun hc' => hcomma (hc' ▸ hc)
    simp [endsFirst, ht.free c hc, hne]
  cases hp : l.first with
  | none =>
    have hq : l.second = none := by
      by_contra hne
      simpa [hp] using h.first_of_second (Option.isSome_iff_ne_none.mpr hne)
    have hread := readFields_opcode label comment h.opcode hgap
    simpa [renderCode, hp, hq] using hread
  | some p =>
    cases hq : l.second with
    | none =>
      have hread := readFields_first label comment h.opcode hone (by simp) (hfirst p hp) hgap'
      simpa [renderCode, hp, hq] using hread
    | some q =>
      have htoken := h.param q (by simp [params, hq])
      have hread := readFields_second label comment h.opcode hone (by simp) (hfirst p hp) htwo
        (by simp) htoken hgap
      simpa [renderCode, hp, hq] using hread

/-- A canonical line is read back from its text. -/
theorem parse_render : parse l.render = .ok l := by
  obtain ⟨gap, tail, hspace, hgap, htail, htext⟩ := exists_toList_render h.params_eq_nil
  have hblank : ∀ c ∈ gap ++ tail, isWhite c = true := fun c hc => by rw [hspace c hc]; rfl
  have hwhite : ∀ c ∈ tail, isWhite c = true := fun c hc => hblank c (List.mem_append_right _ hc)
  have hread := h.readFields_renderCode l.label l.comment hwhite
  have hstart := head?_code h.params_eq_nil htail
  have hsemicolon := notMem_code hspace (show ';' ≠ ' ' by decide) (by decide) fun s hs =>
    h.semicolon s (List.mem_append_right _ hs)
  cases hl : l.label with
  | none =>
    rw [hl] at htext hread
    obtain rfl := hgap hl
    have hcolon := notMem_code hspace (show ':' ≠ ' ' by decide) (by decide) (h.colon hl)
    rw [List.nil_append] at hsemicolon
    have hcode : readCode l.comment (l.renderCode.toList ++ tail) =
        readFields none l.comment (l.renderCode.toList ++ tail) :=
      readCode_unlabelled (w := []) hcolon (by simp)
        fun c hc => h.opcode c (List.mem_of_mem_head? (hstart c hc))
    rw [parse_eq hsemicolon (by simpa using htext), hcode, hread, ← hl]
  | some s =>
    rw [hl] at htext hread
    obtain ⟨hne, hlabel⟩ := h.label s hl
    have hgap : ∀ c ∈ gap, isSeparator c = true := fun c hc =>
      isSeparator_of_isWhite (hblank c (List.mem_append_left _ hc))
    have hsemicolon : ';' ∉ s.toList ++ ':' :: (gap ++ (l.renderCode.toList ++ tail)) := by
      have hs := h.semicolon s (by simp [hl])
      simp only [List.mem_append, List.mem_cons, not_or] at hsemicolon ⊢
      exact ⟨hs, by decide, hsemicolon⟩
    have hcode := readCode_labelled (w := []) (v := []) l.comment (by simp) (by simp) hne hlabel hgap
      fun c hc => h.opcode_start (by simp [hl]) c (hstart c hc)
    rw [List.append_nil, List.nil_append] at hcode
    rw [parse_eq hsemicolon (by simpa using htext), hcode, hread, ← hl]

/-- The white space of a canonical text is blanks, unless it belongs to the comment. -/
theorem eq_blank_of_isWhite {c : Char} (hc : c ∈ l.render.toList) (hwhite : isWhite c = true) :
    c = ' ' ∨ ∃ s ∈ l.comment, c ∈ s.toList := by
  obtain ⟨gap, tail, hblank, _, _, htext⟩ := exists_toList_render h.params_eq_nil
  rw [htext] at hc
  rcases List.mem_append.mp hc with hc | hc
  · left
    rcases List.mem_append.mp hc with hc | hc
    · cases hl : l.label with
      | none => simp [hl] at hc
      | some s =>
        rw [hl] at hc
        rcases List.mem_append.mp hc with hc | hc
        · rw [isWhite_of_isForbidden ((h.label s hl).2 c hc)] at hwhite
          cases hwhite
        · rw [List.mem_singleton.mp hc] at hwhite
          cases hwhite
    · rcases List.mem_append.mp hc with hc | hc
      · exact hblank c (List.mem_append_left _ hc)
      rcases List.mem_append.mp hc with hc | hc
      · rcases mem_renderCode hc with rfl | rfl | ⟨s, hs, hc⟩
        · rfl
        · cases hwhite
        · rcases List.mem_cons.mp hs with rfl | hs
          · simp [h.opcode c hc] at hwhite
          · simp [(h.param s hs).free c hc] at hwhite
      · exact hblank c (List.mem_append_right _ hc)
  · right
    cases hcomment : l.comment with
    | none => simp [hcomment] at hc
    | some s =>
      rw [hcomment] at hc
      rcases List.mem_cons.mp hc with rfl | hc
      · cases hwhite
      · exact ⟨s, rfl, hc⟩

theorem render_ne_empty (hop : l.opcode ≠ "") : l.render ≠ "" := by
  obtain ⟨gap, tail, _, _, _, htext⟩ := exists_toList_render h.params_eq_nil
  intro hrender
  rw [hrender] at htext
  simp [renderCode, hop] at htext

theorem unbroken_render (hcomment : l.comment = none) : Text.Unbroken l.render.toList := by
  have hblank (c : Char) (hc : c ∈ l.render.toList) (hwhite : isWhite c = true) : c = ' ' := by
    simpa [hcomment] using h.eq_blank_of_isWhite hc hwhite
  refine ⟨fun hc => ?_, fun hc => ?_⟩
  · cases hblank _ hc rfl
  · cases hblank _ (List.mem_of_getLast? hc) rfl

end Canonical

/-- A text that can be any field of a line. -/
structure Plain (s : String) : Prop where
  ne_empty : s ≠ ""
  free : ∀ c ∈ s.toList, isSeparator c = false ∧ c ≠ ';'

theorem canonical_of_plain {l : Line} (hlabel : l.label = none)
    (hsecond : l.second.isSome → l.first.isSome) (hplain : ∀ s ∈ l.opcode :: l.params, Plain s) :
    l.Canonical := by
  have hwhite (s : String) (hs : s ∈ l.opcode :: l.params) :
      ∀ c ∈ s.toList, isWhite c = false ∧ c ≠ ':' ∧ c ≠ ',' :=
    fun c hc => isSeparator_eq_false_iff.mp ((hplain s hs).free c hc).1
  have hop : l.opcode ≠ "" := (hplain _ List.mem_cons_self).ne_empty
  refine ⟨?_, ?_, by simp [hlabel], ?_, by simp [hlabel], fun h => absurd h hop, hsecond, ?_, ?_⟩
  · rw [hlabel]
    exact fun s hs hc => ((hplain s hs).free _ hc).2 rfl
  · exact fun _ s hs hc => (hwhite s hs _ hc).2.1 rfl
  · exact fun c hc => (hwhite _ (List.mem_cons_self) c hc).1
  · intro s hs
    have hs := List.mem_cons_of_mem l.opcode hs
    exact ⟨mt String.toList_eq_nil_iff.mp (hplain s hs).ne_empty,
      fun c hc => ((hplain s hs).free c (List.mem_of_mem_head? hc)).1,
      fun c hc => (hwhite s hs c hc).1⟩
  · intro s hs hc
    exact (hwhite s (by simp_all [params]) _ hc).2.2 rfl

end Line

end Breadboard
