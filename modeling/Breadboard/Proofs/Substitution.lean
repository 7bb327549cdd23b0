import Breadboard.Proofs.Correspondence
import Breadboard.Proofs.LineEdit
import Breadboard.Proofs.Outline
import Breadboard.Proofs.Resolving
import Breadboard.Proofs.SweepText

/-! Labels as abbreviations. A label that an operand names stands for its address: with the address
written in its place, a statement has the same length and the same bytes. So a text that assembles
can be rewritten to one that names no label, and still declares them all at the same addresses. -/

set_option autoImplicit false

namespace Breadboard

open Measured

namespace Operand

/-- A token with the address of its label in place of the label, if that has one. -/
def resolveToken (r : Resolver) (token : String) : String :=
  match token.toList with
  | '#' :: name => (r (String.ofList name)).elim token fun v => Text.decimal v.toNat
  | '[' :: '#' :: rest =>
    if rest.getLast? = some ']' then
      (r (String.ofList rest.dropLast)).elim token fun v => "[" ++ Text.decimal v.toNat ++ "]"
    else token
  | _ => token

def resolve (r : Resolver) (o : Operand) : Operand := (o.resolve? r).getD o

theorem label?_eq_some_iff {o : Operand} {name : String} :
    o.label? = some name ↔ o.atom = .immediate (.label name) := by
  obtain ⟨atom, indirect⟩ := o
  rcases atom with register | value | other <;> simp [label?]

variable (r : Resolver)

theorem resolve_of_label? {o : Operand} (h : o.label? = none) : o.resolve r = o := by
  obtain ⟨atom, indirect⟩ := o
  rcases atom with register | value | name
  · rfl
  · rfl
  · cases h

theorem resolveToken_render (name : String) (indirect : Bool) :
    resolveToken r (render ⟨.immediate (.label name), indirect⟩) =
      (resolve r ⟨.immediate (.label name), indirect⟩).render := by
  cases h : r name <;> cases indirect <;>
    simp [resolveToken, resolve, resolve?, render, Atom.render, Immediate.render, h]

theorem eq_render_of_resolveToken {token : String} (h : resolveToken r token ≠ token) :
    ∃ name indirect v, r name = some v ∧ token = render ⟨.immediate (.label name), indirect⟩ := by
  unfold resolveToken at h
  split at h
  · next name htoken =>
    obtain ⟨v, hv⟩ : ∃ v, r (String.ofList name) = some v :=
      Option.ne_none_iff_exists'.mp fun hnone => h (by rw [hnone]; rfl)
    refine ⟨String.ofList name, false, v, hv, ?_⟩
    rw [← String.toList_inj, htoken]
    simp [render, Atom.render, Immediate.render]
  · next rest htoken =>
    split at h
    · next hlast =>
      obtain ⟨v, hv⟩ : ∃ v, r (String.ofList rest.dropLast) = some v :=
        Option.ne_none_iff_exists'.mp fun hnone => h (by rw [hnone]; rfl)
      refine ⟨String.ofList rest.dropLast, true, v, hv, ?_⟩
      obtain ⟨name, rfl⟩ := List.getLast?_eq_some_iff.mp hlast
      rw [← String.toList_inj, htoken]
      simp [render, Atom.render, Immediate.render]
    · exact absurd rfl h
  · exact absurd rfl h

theorem rewrites_resolveToken : Line.Rewrites (resolveToken r) := by
  refine ⟨rfl, fun token => ?_⟩
  by_cases h : resolveToken r token = token
  · exact .inl h
  · obtain ⟨name, indirect, v, hv, rfl⟩ := eq_render_of_resolveToken r h
    right
    rw [resolveToken_render]
    have hresolve : resolve r ⟨.immediate (.label name), indirect⟩ =
        Field.operand v ⟨.pc, indirect⟩ := by
      simp [resolve, resolve?, hv, Field.operand, Field.fetches]
    rw [hresolve]
    exact Field.plain_render_operand v _

/-- An operand that names a label is spelled in one way only. -/
theorem eq_render_of_parse {token name : String} {o : Operand} (h : parse token = .ok o)
    (hlabel : o.label? = some name) : token = o.render := by
  obtain ⟨inner, hatom, htoken⟩ := exists_inner_of_parse h
  obtain ⟨atom, indirect⟩ := o
  obtain rfl : atom = .immediate (.label name) := label?_eq_some_iff.mp hlabel
  obtain rfl := eq_of_readAtom_label hatom
  rw [← String.toList_inj, toList_render_label]
  rcases htoken with ⟨hindirect, htoken⟩ | ⟨hindirect, htoken, _⟩
  · rw [htoken, if_pos hindirect]
  · rw [htoken, if_neg (by simp [show indirect = false from hindirect])]

theorem label?_of_parse_render {name : String} {indirect : Bool} {o : Operand}
    (h : parse (render ⟨.immediate (.label name), indirect⟩) = .ok o) : o.label? = some name := by
  obtain ⟨inner, hatom, htoken⟩ := exists_inner_of_parse h
  rw [toList_render_label] at htoken
  have hinner : inner = '#' :: name.toList := by
    cases indirect with
    | true =>
      rcases htoken with ⟨_, htoken⟩ | ⟨_, rfl, hhead⟩
      · exact List.append_cancel_right (List.cons.inj htoken).2.symm
      · exact absurd rfl hhead
    | false =>
      rcases htoken with ⟨_, htoken⟩ | ⟨_, rfl, _⟩
      · cases htoken
      · rfl
  rw [hinner] at hatom
  exact label?_eq_some_iff.mpr (eq_label_of_readAtom hatom)

/-- Reading a token and resolving its label can be done in either order. -/
theorem parse_resolveToken {token : String} {o : Operand} (h : parse token = .ok o) :
    parse (resolveToken r token) = .ok (o.resolve r) := by
  cases hlabel : o.label? with
  | none =>
    have hsame : resolveToken r token = token := by
      by_contra hne
      obtain ⟨name, indirect, v, _, rfl⟩ := eq_render_of_resolveToken r hne
      rw [label?_of_parse_render h] at hlabel
      cases hlabel
    rw [hsame, resolve_of_label? r hlabel, h]
  | some name =>
    obtain rfl := eq_render_of_parse h hlabel
    obtain ⟨atom, indirect⟩ := o
    obtain rfl : atom = .immediate (.label name) := label?_eq_some_iff.mp hlabel
    rw [resolveToken_render]
    cases hv : r name with
    | none => simpa [resolve, resolve?, hv] using h
    | some v => exact parse_render (by simp [resolve, resolve?, hv, Canonical])

theorem resolve?_resolve {r' : Resolver} (h : ∀ name v, r name = some v → r' name = some v)
    (o : Operand) : (o.resolve r).resolve? r' = o.resolve? r' := by
  obtain ⟨atom, indirect⟩ := o
  rcases atom with register | value | name
  · rfl
  · rfl
  · cases hv : r name with
    | none => simp [resolve, resolve?, hv]
    | some v => simp [resolve, resolve?, hv, h name v hv]

theorem resolve?_eq_resolve {o : Operand} (h : ∀ name, o.label? = some name → (r name).isSome) :
    o.resolve? r = some (o.resolve r) := by
  obtain ⟨atom, indirect⟩ := o
  rcases atom with register | value | name
  · rfl
  · rfl
  · obtain ⟨v, hv⟩ := Option.isSome_iff_exists.mp (h name rfl)
    simp [resolve, resolve?, hv]

theorem label?_resolve {o : Operand} (h : ∀ name, o.label? = some name → (r name).isSome) :
    (o.resolve r).label? = none := by
  obtain ⟨atom, indirect⟩ := o
  rcases atom with register | value | name
  · rfl
  · rfl
  · obtain ⟨v, hv⟩ := Option.isSome_iff_exists.mp (h name rfl)
    simp [resolve, resolve?, label?, hv]

end Operand

namespace Statement

def resolve (r : Resolver) (s : Statement) : Statement where
  line := s.line.mapOperands (Operand.resolveToken r)
  operands := s.operands.map (Operand.resolve r)

variable (r : Resolver)

theorem ofLine_resolve {l : Line} {s : Statement} (h : ofLine l = .ok s) :
    ofLine (s.resolve r).line = .ok (s.resolve r) := by
  obtain ⟨operands, hoperands, rfl⟩ := Except.map_eq_ok_iff.mp h
  refine Except.map_eq_ok_iff.mpr ⟨operands.map (Operand.resolve r), ?_, rfl⟩
  have hparams : (l.first.map (Operand.resolveToken r)).toList ++
      (l.second.map (Operand.resolveToken r)).toList =
        (l.first.toList ++ l.second.toList).map (Operand.resolveToken r) := by
    cases l.first <;> cases l.second <;> rfl
  unfold resolve Line.mapOperands
  simp only
  rw [hparams, Except.mapM_eq_ok_iff, List.forall₂_map_left_iff, List.forall₂_map_right_iff]
  exact (Except.mapM_eq_ok_iff.mp hoperands).imp fun _ _ => Operand.parse_resolveToken r

theorem isSome_of_label? {s : Statement} (h : ∀ name ∈ s.labels, (r name).isSome) :
    ∀ o ∈ s.operands, ∀ name, o.label? = some name → (r name).isSome :=
  fun o ho name hname => h name (List.mem_filterMap.mpr ⟨o, ho, hname⟩)

theorem labels_resolve {s : Statement} (h : ∀ name ∈ s.labels, (r name).isSome) :
    (s.resolve r).labels = [] := by
  unfold labels resolve
  rw [List.filterMap_map, List.filterMap_eq_nil_iff]
  intro o ho
  exact Operand.label?_resolve r (isSome_of_label? r h o ho)

theorem encode_resolve {r' : Resolver} (hr : ∀ name v, r name = some v → r' name = some v)
    {s : Statement} {w : List UInt8} (h : s.encode r' = .ok w) :
    (s.resolve r).encode r' = .ok w := by
  by_cases hop : s.line.opcode = ""
  · have hempty : s.line.isEmpty = true := String.isEmpty_iff.mpr hop
    rw [encode, if_pos hempty] at h
    rw [encode, if_pos (show (s.resolve r).line.isEmpty = true from hempty)]
    exact h
  obtain ⟨op, e, hmnemonic, he, hbytes⟩ := (encode_eq_ok_iff_of hop).mp h
  have hbound := isSome_of_label? r' ((exists_encode_iff (length_eq_of_encode h)).mp ⟨w, h⟩
    (Line.isEmpty_eq_false_iff.mpr hop))
  -- With all labels resolved, both become the same statement.
  have hwhole : s.operands.Forall₂ (fun o d => o.resolve? r' = some d)
      (s.operands.map (Operand.resolve r')) := by
    rw [List.forall₂_map_right_iff, List.forall₂_same]
    intro o ho
    exact Operand.resolve?_eq_resolve r' (hbound o ho)
  have hrest : (s.resolve r).operands.Forall₂ (fun o d => o.resolve? r' = some d)
      (s.operands.map (Operand.resolve r')) := by
    unfold resolve
    rw [List.forall₂_map_left_iff, List.forall₂_map_right_iff, List.forall₂_same]
    intro o ho
    rw [Operand.resolve?_resolve r hr]
    exact Operand.resolve?_eq_resolve r' (hbound o ho)
  have hsame := (Encoding.of_resolved hwhole op).symm.trans (Encoding.of_resolved hrest op)
  rw [Encoding.bytes?_eq_some_iff.mpr ⟨e, he, hbytes⟩] at hsame
  obtain ⟨e', he', hbytes'⟩ := Encoding.bytes?_eq_some_iff.mp hsame.symm
  have hop' : (s.resolve r).line.opcode ≠ "" := hop
  exact (encode_eq_ok_iff_of hop').mpr ⟨op, e', hmnemonic, he', hbytes'⟩

theorem length_resolve {s : Statement} {n : Nat} (h : s.length = .ok n) :
    (s.resolve r).length = .ok n := by
  let r' : Resolver := fun name => some ((r name).getD 0)
  have hr (name : String) (v : UInt8) (hv : r name = some v) : r' name = some v := by
    simp [r', hv]
  obtain ⟨w, hw⟩ := (exists_encode_iff h (r := r')).mpr fun _ _ _ => rfl
  rw [length_eq_of_encode (encode_resolve r hr hw), length_of_encode h hw]

theorem parse_editOperands {text : String} {s : Statement} (h : parse text = .ok s) :
    parse (Line.editOperands (Operand.resolveToken r) text) = .ok (s.resolve r) := by
  obtain ⟨line, hline, hof⟩ := parse_eq_ok_iff.mp h
  have hedit := Line.parse_editOperands (Operand.rewrites_resolveToken r) hline
  rw [← line_of_ofLine hof] at hedit hof
  exact parse_eq_ok_iff.mpr ⟨_, hedit, ofLine_resolve r hof⟩

end Statement

namespace Measured

def resolve (r : Resolver) (m : Measured) : Measured where
  statement := m.statement.resolve r
  length := m.length
  ofLine_eq := Statement.ofLine_resolve r m.ofLine_eq
  length_eq := Statement.length_resolve r m.length_eq

theorem Read.resolve (r : Resolver) {texts : List String} {ms : List Measured}
    (h : Read texts ms) : Read (texts.map (Line.editOperands (Operand.resolveToken r)))
      (ms.map (Measured.resolve r)) := by
  unfold Read at h ⊢
  rw [List.forall₂_map_left_iff, List.forall₂_map_right_iff]
  exact h.imp fun _ _ => Statement.parse_editOperands r

end Measured

namespace Program

/-- A text with the addresses that the labels have in a program, in place of the labels that its
operands name. -/
def resolveSource (p : Program) (source : String) : String :=
  Text.mapLines (Line.editOperands (Operand.resolveToken p.labels.find?)) source

theorem lines_resolveSource (p : Program) (source : String) :
    Text.lines (p.resolveSource source) =
      (Text.lines source).map (Line.editOperands (Operand.resolveToken p.labels.find?)) :=
  Text.lines_mapLines
    (fun text => (Line.keeps_editOperands (Operand.rewrites_resolveToken _) text).keepsEnd) source

theorem isSome_of_mem_labels (config : Config) {texts : List String} {ms : List Measured}
    (hread : Read texts ms) (hclosed : Closed ms) {m : Measured} (hm : m ∈ ms) :
    ∀ name ∈ m.statement.labels, ((ofMeasured config ms).labels.find? name).isSome := by
  intro name hname
  obtain ⟨text, _, hparse⟩ := Except.exists_of_forall₂ hread.flip m hm
  by_cases hop : m.statement.line.opcode = ""
  · rw [Statement.labels_of_parse hparse hop] at hname
    cases hname
  · exact (isSome_find?_ofMeasured_iff name).mpr (hclosed m hm hop name hname)

end Program

/-- A text that assembles can be rewritten to one that names no label: with the address of its label
in place of each operand that names one, it assembles to the same machine code, with the same labels
and with each line at the same place. -/
theorem assemble_resolveSource {source : String} {config : Config} {p : Program}
    (h : assemble source config = .ok p) :
    ∃ q, assemble (p.resolveSource source) config = .ok q ∧
      (∃ code, p.machineCode = .ok code ∧ q.machineCode = .ok code) ∧
      q.placements = p.placements ∧ q.labels = p.labels ∧
      q.lines.map Placed.statement = p.lines.map (fun l => l.statement.resolve p.labels.find?) ∧
      ∀ l ∈ q.lines, l.statement.labels = [] := by
  obtain ⟨ms, hread, hfit, hclosed, hp⟩ := assembleLines_eq_ok_iff.mp h
  have hread' := hread.resolve p.labels.find?
  rw [← p.lines_resolveSource] at hread'
  obtain ⟨hq, hcode, hplacements, hlabels⟩ := assembleLines_map (g := resolve p.labels.find?)
    (fun _ => rfl) (fun _ => rfl) h hread hread'
    fun m w => Statement.encode_resolve _ fun _ _ => id
  refine ⟨_, hq, hcode, hplacements, hlabels, ?_, ?_⟩
  · rw [hp, Program.lines_ofMeasured, Program.lines_ofMeasured, map_statement_placed, List.map_map]
    exact (map_placed ms fun _ _ => rfl).symm
  · rw [Program.lines_ofMeasured]
    apply (forall_mem_placed_iff (P := fun s => s.labels = [])).mpr
    rw [List.forall_mem_map]
    intro m hm
    apply Statement.labels_resolve
    rw [hp]
    exact Program.isSome_of_mem_labels config hread hclosed hm

/-- A label that is bound twice and one that is declared behind its use, a comment that looks like an
operand, and two kinds of line ends. -/
theorem assemble_resolveSource_forward : ∃ p q,
    assemble "x: JMP #y\r\nx: MOV A,[#x] ;#x\ny:" { allowRedefinition := true } = .ok p ∧
      p.resolveSource "x: JMP #y\r\nx: MOV A,[#x] ;#x\ny:" =
        "x: JMP 4\r\nx: MOV A,[2] ;#x\ny:" ∧
      assemble "x: JMP 4\r\nx: MOV A,[2] ;#x\ny:" { allowRedefinition := true } = .ok q ∧
      q.labels = p.labels ∧ q.machineCode = .ok [0xEE, 4, 0x87, 2] := by
  have hrun : (assemble "x: JMP #y\r\nx: MOV A,[#x] ;#x\ny:" { allowRedefinition := true }).map
      (fun p => (p.resolveSource "x: JMP #y\r\nx: MOV A,[#x] ;#x\ny:", p.machineCode)) =
        .ok ("x: JMP 4\r\nx: MOV A,[2] ;#x\ny:", .ok [0xEE, 4, 0x87, 2]) := by decide +kernel
  obtain ⟨p, hp, hpair⟩ := Except.map_eq_ok_iff.mp hrun
  obtain ⟨hsource, hcode⟩ := Prod.mk.inj hpair
  obtain ⟨q, hq, ⟨code, hcode', hqcode⟩, _, hlabels, _⟩ := assemble_resolveSource hp
  obtain rfl : _ = code := by simpa [hcode] using hcode'
  rw [hsource] at hq
  exact ⟨p, q, hp, hsource, hq, hlabels, hqcode⟩

end Breadboard
