import Breadboard.Proofs.Answers
import Breadboard.Proofs.OperandGrammar
import Breadboard.Proofs.Refusals
import Breadboard.Proofs.SweepText

/-! What the report of an assembly cites. Every message is made of fixed words, numbers, names of the
machine and at most one piece of the source. That piece stands in the line that the message is about,
but for the digits of a number, which are written again. So whatever the source is, a message stays on
one line. -/

set_option autoImplicit false

namespace Breadboard

/-- Nothing but digits is in the text that is not in the source. -/
def DrawnFrom (source text : String) : Prop :=
  ∀ c ∈ text.toList, c ∈ source.toList ∨ c.isDigit = true

namespace DrawnFrom
variable {source text : String}

theorem of_mem (h : ∀ c ∈ text.toList, c ∈ source.toList) : DrawnFrom source text :=
  fun c hc => .inl (h c hc)

theorem empty (source : String) : DrawnFrom source "" := of_mem (by simp)

theorem mono {part : String} (h : DrawnFrom part text)
    (hpart : ∀ c ∈ part.toList, c ∈ source.toList) : DrawnFrom source text :=
  fun c hc => (h c hc).imp_left (hpart c)

end DrawnFrom

/-! ### Messages -/

theorem Text.feed_notMem_append {s t : String} (hs : '\n' ∉ s.toList) (ht : '\n' ∉ t.toList) :
    '\n' ∉ (s ++ t).toList := by
  rw [String.toList_append, List.mem_append, not_or]
  exact ⟨hs, ht⟩

theorem Op.feed_notMem_mnemonic (op : Op) : '\n' ∉ op.mnemonic.toList := by
  intro hc
  cases (op.plain_mnemonic.free _ hc).1

def ParseError.cited : ParseError → String
  | invalidLabel name => name
  | trailingInput token => token
  | unclosedBracket token => token
  | unopenedBracket token => token
  | emptyOperand => ""
  | emptyLabelReference token => token
  | invalidLiteral text => text
  | literalOutOfRange text => text

def EncodeError.cited : EncodeError → String
  | unknownOpcode opcode => opcode
  | operandCount _ _ => ""
  | bothDereferenced => ""
  | twoImmediates => ""
  | notReadable _ operand => operand.render
  | notWritable _ operand => operand.render
  | unencodable _ operand => operand.render
  | registerRequired _ operand => operand.render
  | reserved _ operand _ _ => operand.render
  | undefinedLabel name => name

def AssemblyError.cited : AssemblyError → String
  | parse e => e.cited
  | encode e => e.cited
  | redefinedLabel label _ => label
  | addressOverflow _ _ => ""
  | unresolvedLabel label _ => label

section Messages
open Text

theorem feed_notMem_cite {s : String} (h : '\n' ∉ s.toList) : '\n' ∉ (cite s).toList :=
  feed_notMem_append (feed_notMem_append (by simp) h) (by simp)

theorem ParseError.feed_notMem_message {e : ParseError} (h : '\n' ∉ e.cited.toList) :
    '\n' ∉ e.message.toList := by
  cases e with
  | invalidLabel | invalidLiteral => exact feed_notMem_append (feed_notMem_cite h) (by simp)
  | emptyOperand =>
    show '\n' ∉ "empty operand".toList
    simp
  | trailingInput | unclosedBracket | unopenedBracket | emptyLabelReference | literalOutOfRange =>
    exact feed_notMem_append (feed_notMem_append (by simp) (feed_notMem_cite h)) (by simp)

theorem EncodeError.feed_notMem_about (op : Op) {operand : Operand} {fault : String}
    (hoperand : '\n' ∉ operand.render.toList) (hfault : '\n' ∉ fault.toList) :
    '\n' ∉ (about op operand fault).toList := by
  have hop : '\n' ∉ (op.mnemonic ++ ": ").toList :=
    feed_notMem_append op.feed_notMem_mnemonic (by simp)
  have hcite : '\n' ∉ (op.mnemonic ++ ": " ++ cite operand.render).toList :=
    feed_notMem_append hop (feed_notMem_cite hoperand)
  exact feed_notMem_append (feed_notMem_append hcite (by simp)) hfault

theorem EncodeError.feed_notMem_message {e : EncodeError} (h : '\n' ∉ e.cited.toList) :
    '\n' ∉ e.message.toList := by
  cases e with
  | unknownOpcode | undefinedLabel => exact feed_notMem_append (by simp) (feed_notMem_cite h)
  | operandCount op found =>
    have harity : '\n' ∉ (op.mnemonic ++ " takes " ++ decimal op.arity).toList :=
      feed_notMem_append (feed_notMem_append op.feed_notMem_mnemonic (by simp))
        (notMem_decimal rfl)
    exact feed_notMem_append (feed_notMem_append harity (by simp)) (notMem_decimal rfl)
  | bothDereferenced | twoImmediates =>
    exact feed_notMem_append (Op.feed_notMem_mnemonic _) (by simp)
  | notReadable op | notWritable op | unencodable op | registerRequired op =>
    exact feed_notMem_about op h (by simp)
  | reserved op operand byte owner =>
    have hoperand : '\n' ∉ (op.mnemonic ++ " " ++ operand.render).toList :=
      feed_notMem_append (feed_notMem_append op.feed_notMem_mnemonic (by simp)) h
    have hbyte : '\n' ∉ (op.mnemonic ++ " " ++ operand.render ++ " would encode as " ++
        address byte.toNat).toList :=
      feed_notMem_append (feed_notMem_append hoperand (by simp)) (notMem_address rfl)
    exact feed_notMem_append (feed_notMem_append hbyte (by simp)) owner.feed_notMem_mnemonic

theorem AssemblyError.feed_notMem_message {e : AssemblyError} (h : '\n' ∉ e.cited.toList) :
    '\n' ∉ e.message.toList := by
  cases e with
  | parse => exact ParseError.feed_notMem_message h
  | encode => exact EncodeError.feed_notMem_message h
  | redefinedLabel label | unresolvedLabel label =>
    have hlabel : '\n' ∉ (cite label).toList := feed_notMem_cite h
    exact feed_notMem_append (feed_notMem_append (feed_notMem_append (by simp) hlabel) (by simp))
      (notMem_address rfl)
  | addressOverflow address length =>
    have hlength : '\n' ∉ (decimal length ++ " byte(s) at 0x").toList :=
      feed_notMem_append (notMem_decimal rfl) (by simp)
    exact feed_notMem_append (feed_notMem_append hlength (notMem_hex rfl)) (by simp)

theorem LineError.feed_notMem_message {e : LineError} (h : '\n' ∉ e.error.cited.toList) :
    '\n' ∉ e.message.toList := by
  have hline : '\n' ∉ ("line " ++ decimal e.line).toList :=
    feed_notMem_append (by simp) (notMem_decimal rfl)
  exact feed_notMem_append (feed_notMem_append hline (by simp))
    (AssemblyError.feed_notMem_message h)

end Messages

/-! ### Where the pieces come from -/

namespace Line
variable {text : String}

theorem mem_cited_of_parse {e : ParseError} (h : parse text = .error e) :
    ∀ c ∈ e.cited.toList, c ∈ text.toList := by
  intro c hc
  cases fails_of_parse h with
  | @label name code w v rest _ htext hcode =>
    have hname : c ∈ name.toList := hc
    rw [htext.eq, hcode]
    simp [hname]
  | excess htext hcode hbody =>
    rw [htext.eq]
    exact List.mem_append_left _ (hcode.mem_of_body c (hbody.mem_of_token c hc))

theorem mem_of_parse {l : Line} (h : parse text = .ok l) :
    ∀ s ∈ l.label.toList ++ l.opcode :: l.params, ∀ c ∈ s.toList, c ∈ text.toList := by
  obtain ⟨code, body, htext, hcode, hbody⟩ := spells_of_parse h
  intro s hs c hc
  rw [htext.eq]
  exact List.mem_append_left _ (hcode.mem_of_part hbody s hs c hc)

end Line

namespace Operand
variable {token : String}

theorem Brackets.mem_of_inner {inner : String} {indirect : Bool}
    (h : Brackets token inner indirect) : ∀ c ∈ inner.toList, c ∈ token.toList := by
  intro c hc
  cases h with
  | direct => exact hc
  | indirect => simp [hc]

theorem mem_cited_of_parse {e : ParseError} (h : parse token = .error e) :
    ∀ c ∈ e.cited.toList, c ∈ token.toList := by
  cases parse_eq_error_iff.mp h with
  | unclosed | unopened | nameless => exact fun _ hc => hc
  | empty => simp [ParseError.cited]
  | excessive htoken | invalid htoken => exact htoken.mem_of_inner

theorem SpellsAtom.drawnFrom {inner : String} {atom : Atom} (h : SpellsAtom inner atom) :
    DrawnFrom inner atom.render := by
  cases h with
  | @register _ r h =>
    simp only [List.mem_cons, List.not_mem_nil, or_false, Prod.mk.injEq] at h
    rcases h with ⟨rfl, rfl⟩ | ⟨rfl, rfl⟩ | ⟨rfl, rfl⟩ | ⟨rfl, rfl⟩ <;> exact .of_mem fun _ hc => hc
  | label => exact .of_mem fun _ hc => hc
  | literal => exact fun c hc => .inr (Text.isDigit_of_mem_decimal hc)

theorem drawnFrom_render {o : Operand} (h : parse token = .ok o) : DrawnFrom token o.render := by
  obtain ⟨inner, htoken, hinner⟩ := parse_eq_ok_iff.mp h
  obtain ⟨atom, indirect⟩ := o
  have hatom := hinner.drawnFrom.mono htoken.mem_of_inner
  cases htoken with
  | direct => exact hatom
  | indirect =>
    intro c hc
    have hc : c = '[' ∨ c ∈ atom.render.toList ∨ c = ']' := by simpa [render] using hc
    rcases hc with rfl | hc | rfl
    · simp
    · exact hatom c hc
    · simp

end Operand

namespace Encoding
variable {operands : List Operand} {fault : EncodeError}

theorem cited_of_move {dest src : Operand} (h : move dest src = .error fault) :
    fault.cited = "" ∨ fault.cited = dest.render ∨ fault.cited = src.render := by
  unfold move at h
  repeat' split at h
  all_goals cases h
  · exact .inl rfl
  · exact .inl rfl
  · exact .inr (.inl rfl)
  · exact .inr (.inr rfl)

theorem cited_of_source {op : Op} {head : UInt8 → UInt8} {src : Operand}
    (h : source op head src = .error fault) : fault.cited = src.render := by
  unfold source at h
  split at h
  · cases h
    rfl
  · cases h

theorem cited_of_stack {op : Op} {kind : UInt8} {operand : Operand}
    (h : stack op kind operand = .error fault) : fault.cited = operand.render := by
  unfold stack stackByte at h
  dsimp only at h
  repeat' split at h
  all_goals cases h
  all_goals rfl

/-- What is wrong with an operation is shown on one of its operands, if on any. -/
theorem cited_of {op : Op} (h : of op operands = .error fault) :
    fault.cited = "" ∨ ∃ o ∈ operands, fault.cited = o.render := by
  unfold of at h
  split at h
  · simpa using cited_of_move h
  · simpa using .inr (cited_of_source h)
  · simpa using .inr (cited_of_source h)
  · simpa using .inr (cited_of_stack h)
  · cases h
  · cases h
    exact .inl rfl

end Encoding

namespace Statement
variable {text : String} {s : Statement}

theorem mem_cited_of_parse {e : ParseError} (h : Statement.parse text = .error e) :
    ∀ c ∈ e.cited.toList, c ∈ text.toList := by
  unfold Statement.parse at h
  cases hline : Line.parse text with
  | error fault =>
    rw [hline] at h
    cases h
    exact Line.mem_cited_of_parse hline
  | ok line =>
    rw [hline] at h
    obtain ⟨front, token, back, hparams, _, htoken⟩ :=
      Except.mapM_eq_error_iff.mp (Except.map_eq_error_iff.mp h)
    have hmem : token ∈ line.params := by
      rw [Line.params, hparams]
      simp
    intro c hc
    exact Line.mem_of_parse hline token (by simp [hmem]) c (Operand.mem_cited_of_parse htoken c hc)

theorem exists_token_of_parse (h : Statement.parse text = .ok s) {o : Operand}
    (ho : o ∈ s.operands) :
    ∃ token, Operand.parse token = .ok o ∧ ∀ c ∈ token.toList, c ∈ text.toList := by
  obtain ⟨line, hline, hof⟩ := parse_eq_ok_iff.mp h
  obtain ⟨operands, hoperands, rfl⟩ := Except.map_eq_ok_iff.mp hof
  obtain ⟨token, htoken, hparse⟩ :=
    Except.exists_of_forall₂ (Except.mapM_eq_ok_iff.mp hoperands).flip o ho
  have hmem : token ∈ line.params := htoken
  exact ⟨token, hparse, Line.mem_of_parse hline token (by simp [hmem])⟩

theorem drawnFrom_of_encoding (h : Statement.parse text = .ok s) {fault : EncodeError}
    (hfault : s.encoding = .error fault) : DrawnFrom text fault.cited := by
  obtain ⟨line, hline, hof⟩ := parse_eq_ok_iff.mp h
  have hopcode : ∀ c ∈ s.line.opcode.toList, c ∈ text.toList := by
    rw [line_of_ofLine hof]
    exact Line.mem_of_parse hline _ (by simp)
  unfold encoding at hfault
  split at hfault
  · cases hfault
  split at hfault
  · cases hfault
    exact .of_mem hopcode
  · rcases Encoding.cited_of (Except.map_eq_error_iff.mp hfault) with hcited | ⟨o, ho, hcited⟩
    · rw [hcited]
      exact .empty text
    · obtain ⟨token, hparse, hmem⟩ := exists_token_of_parse h ho
      rw [hcited]
      exact (Operand.drawnFrom_render hparse).mono hmem

end Statement

theorem Program.Refuses.drawnFrom {p : Program} {text : String} {e : AssemblyError}
    (h : p.Refuses (Statement.parse text) e) : DrawnFrom text e.cited := by
  cases h with
  | parse hread => exact .of_mem (Statement.mem_cited_of_parse hread)
  | encode hread hlength =>
    exact Statement.drawnFrom_of_encoding hread (Statement.length_eq_error_iff.mp hlength)
  | overflow => exact .empty text
  | @redefined _ _ name _ hread _ _ hlabel =>
    obtain ⟨line, hline, hof⟩ := Statement.parse_eq_ok_iff.mp hread
    rw [Statement.line_of_ofLine hof] at hlabel
    exact .of_mem (Line.mem_of_parse hline name (by simp [hlabel]))

end Breadboard
