import Breadboard.Proofs.Reachable
import Breadboard.Proofs.Resolving
import Breadboard.Proofs.SweepText

/-! References to labels. What a line declares and what an operand names are checked apart. A declared
name has no separator in it, so behind a number sign it is one token of a line, and as an operand it is
taken for a label whatever its characters are. Only a closing bracket at its end is not: a name may end
in one, but a token without an opening bracket may not. Such a name is declared and bound like any
other, and no operand without brackets refers to it. -/

set_option autoImplicit false

namespace Breadboard

def Op.TakesImmediate (op : Op) : Prop :=
  op.family = .alu ∨ op.family = .jump ∨ op = .call ∨ op = .mov

instance (op : Op) : Decidable op.TakesImmediate :=
  inferInstanceAs (Decidable (op.family = .alu ∨ op.family = .jump ∨ op = .call ∨ op = .mov))

/-- The line in which an operation reads an operand. A move puts what it reads into a register. -/
def Op.lineReading (op : Op) (token : String) : Line where
  label := none
  opcode := op.mnemonic
  first := some (if op = .mov then "A" else token)
  second := if op = .mov then some token else none
  comment := none

/-- A text in which an operation reads an operand, whatever label and comment there are. -/
def Op.Reads (op : Op) (token text : String) : Prop :=
  ∃ l, Line.parse text = .ok l ∧ l.opcode = op.mnemonic ∧ l.params = (op.lineReading token).params

def Op.operandsReading (op : Op) (o : Operand) : List Operand :=
  if op = .mov then [⟨.register .a, false⟩, o] else [o]

theorem Op.params_lineReading (op : Op) (token : String) :
    (op.lineReading token).params = if op = .mov then ["A", token] else [token] := by
  unfold lineReading Line.params
  split <;> rfl

theorem Op.reads_render_lineReading (op : Op) {token : String} (h : Line.Plain token) :
    op.Reads token (op.lineReading token).render := by
  have hcanonical : (op.lineReading token).Canonical := by
    refine Line.canonical_of_plain rfl (by simp [lineReading]) fun s hs => ?_
    rcases List.mem_cons.mp hs with rfl | hs
    · exact op.plain_mnemonic
    · rw [params_lineReading] at hs
      split at hs
      · rcases List.mem_cons.mp hs with rfl | hs
        · exact Register.a.plain_name
        · rwa [List.mem_singleton.mp hs]
      · rwa [List.mem_singleton.mp hs]
  exact ⟨_, hcanonical.parse_render, rfl, rfl⟩

/-- A declared name is such that a number sign and the name are one token. -/
theorem Line.plain_reference {text name : String} {l : Line} (h : parse text = .ok l)
    (hname : l.label = some name) : name ≠ "" ∧ Plain ("#" ++ name) := by
  obtain ⟨code, body, htext, hcode, _⟩ := spells_of_parse h
  obtain ⟨hne, hfree⟩ := hcode.label_free name hname
  refine ⟨hne, by simp, fun c hc => ?_⟩
  rw [String.toList_append, List.mem_append] at hc
  rcases hc with hc | hc
  · obtain rfl : c = '#' := by simpa using hc
    decide
  · refine ⟨(isForbidden_eq_false_iff.mp (hfree c hc)).1, ?_⟩
    rintro rfl
    exact htext.free (hcode.mem_of_label name hname _ hc)

namespace Operand

theorem parse_reference {name : String} (hne : name ≠ "")
    (hlast : name.toList.getLast? ≠ some ']') :
    parse ("#" ++ name) = .ok ⟨.immediate (.label name), false⟩ :=
  parse_render (o := ⟨.immediate (.label name), false⟩) ⟨hne, .inr hlast⟩

theorem parse_reference_of_last {name : String} (hlast : name.toList.getLast? = some ']') :
    parse ("#" ++ name) = .error (.unopenedBracket ("#" ++ name)) := by
  have htoken : ("#" ++ name).toList = '#' :: name.toList := by simp
  have hunbracket : unbracket ("#" ++ name).toList = .error (.unopenedBracket ("#" ++ name)) := by
    unfold unbracket
    rw [String.ofList_toList, htoken, List.getLast?_cons, hlast]
    rfl
  unfold parse
  rw [hunbracket]

end Operand

/-- Whether such a text is a statement depends on the operand alone. -/
theorem Op.Reads.parse_eq {op : Op} {token text : String} (h : op.Reads token text) :
    ∃ l, l.opcode = op.mnemonic ∧
      Statement.parse text = (Operand.parse token).map fun o => ⟨l, op.operandsReading o⟩ := by
  obtain ⟨l, hl, hop, hparams⟩ := h
  rw [params_lineReading] at hparams
  have hmapM : l.params.mapM Operand.parse = (Operand.parse token).map op.operandsReading := by
    have hregister : Operand.parse "A" = .ok ⟨.register .a, false⟩ := by rfl
    unfold operandsReading
    rw [hparams]
    split
    · rw [Except.mapM_cons, Except.mapM_cons, hregister]
      cases Operand.parse token <;> rfl
    · rw [Except.mapM_cons]
      cases Operand.parse token <;> rfl
  have hof : Statement.ofLine l = (l.params.mapM Operand.parse).map fun operands => ⟨l, operands⟩ := rfl
  refine ⟨l, hop, ?_⟩
  rw [Statement.parse, hl, Except.bind, hof, hmapM]
  cases Operand.parse token <;> rfl

/-- An operation that can read an immediate can read each of them, and has it behind its head byte. -/
theorem Encoding.exists_of_operandsReading {op : Op} (h : op.TakesImmediate) (i : Immediate) :
    ∃ head, of op (op.operandsReading ⟨.immediate i, false⟩) = .ok ⟨head, some i⟩ := by
  cases op <;> first | exact ⟨_, rfl⟩ | exact absurd h (by decide)

theorem Statement.exists_encode_operandsReading {op : Op} (h : op.TakesImmediate) {l : Line}
    (hop : l.opcode = op.mnemonic) {r : Resolver} {name : String} {a : UInt8} (ha : r name = some a) :
    ∃ head, encode r ⟨l, op.operandsReading ⟨.immediate (.label name), false⟩⟩ = .ok [head, a] := by
  obtain ⟨head, hhead⟩ := Encoding.exists_of_operandsReading h (.label name)
  have hempty : l.isEmpty = false := by
    rw [Line.isEmpty_eq_false_iff, hop]
    exact op.plain_mnemonic.ne_empty
  refine ⟨head, ?_⟩
  simp [encode, hempty, hop, Op.ofMnemonic?_eq_some_iff.mpr rfl, hhead, Except.bind,
    Encoding.bytes, Immediate.byte, ha, Except.map]

namespace Program

/-- Wherever a declared name is bound, each operation that can read an immediate can be given it as an
operand, and has its address as second byte, unless the name ends in a closing bracket. Then the
operand is refused, bound or not. -/
theorem encode_reference_run {config : Config} {rs : List Request} {declaration name : String}
    {l : Line} (hl : Line.parse declaration = .ok l) (hname : l.label = some name) {a : UInt8}
    (ha : (run config rs).labels.find? name = some a) {op : Op} (hop : op.TakesImmediate) :
    op.Reads ("#" ++ name) (op.lineReading ("#" ++ name)).render ∧
      ∀ text, op.Reads ("#" ++ name) text →
        if name.toList.getLast? = some ']'
        then Statement.parse text = .error (.unopenedBracket ("#" ++ name))
        else ∃ s head, Statement.parse text = .ok s ∧
          s.encode (run config rs).labels.find? = .ok [head, a] := by
  obtain ⟨hne, hplain⟩ := Line.plain_reference hl hname
  refine ⟨op.reads_render_lineReading hplain, fun text htext => ?_⟩
  obtain ⟨line, hline, hparse⟩ := htext.parse_eq
  split
  · next hlast =>
    rw [hparse, Operand.parse_reference_of_last hlast]
    rfl
  · next hlast =>
    rw [Operand.parse_reference hne hlast] at hparse
    obtain ⟨head, hhead⟩ := Statement.exists_encode_operandsReading hop hline ha
    exact ⟨_, head, hparse, hhead⟩

/-- A name with a bracket inside, in a line with a label and a comment of its own. -/
theorem encode_reference_run_move : Line.parse "A]1:" = .ok ⟨some "A]1", "", none, none, none⟩ ∧
    (run {} [.source "HLT", .source "A]1:"]).labels.find? "A]1" = some 1 ∧ Op.mov.TakesImmediate ∧
    Op.mov.Reads "#A]1" "x:\tMOV A #A]1 ;y" ∧
    ∃ s head, Statement.parse "x:\tMOV A #A]1 ;y" = .ok s ∧
      s.encode (run {} [.source "HLT", .source "A]1:"]).labels.find? = .ok [head, 1] := by
  have hl : Line.parse "A]1:" = .ok ⟨some "A]1", "", none, none, none⟩ := by decide
  have ha : (run {} [.source "HLT", .source "A]1:"]).labels.find? "A]1" = some 1 := by rfl
  have htext : Op.mov.Reads "#A]1" "x:\tMOV A #A]1 ;y" := ⟨_, rfl, rfl, rfl⟩
  have hop : Op.mov.TakesImmediate := by decide
  have h := (encode_reference_run hl rfl ha hop).2 _ htext
  rw [if_neg (by decide)] at h
  exact ⟨hl, ha, hop, htext, h⟩

/-- A name that is declared and bound, and cannot be used. -/
theorem encode_reference_bracket : Line.parse "x]: HLT" = .ok ⟨some "x]", "HLT", none, none, none⟩ ∧
    (run {} [.source "x]: HLT"]).labels.find? "x]" = some 0 ∧ Op.jmp.TakesImmediate ∧
    Op.jmp.Reads "#x]" "JMP #x]" ∧ Statement.parse "JMP #x]" = .error (.unopenedBracket "#x]") :=
  ⟨by decide, rfl, by decide, ⟨_, rfl, rfl, rfl⟩, by decide⟩

end Program

end Breadboard
