/-! The operations of the machine: their mnemonics, their families, and the layout of the byte that
encodes each of them. -/

set_option autoImplicit false

namespace Breadboard

inductive Family
  | move
  | alu
  | jump
  | ancillary
  deriving Repr, DecidableEq

def Family.name : Family → String
  | move => "Move"
  | alu => "Alu"
  | jump => "Jump"
  | ancillary => "Ancillary"

/-- How the first byte of an instruction is put together. -/
inductive Layout
  /-- A destination field and a source field. -/
  | move
  /-- A four-bit code of an arithmetic operation and a source field. -/
  | alu (code : UInt8)
  /-- A kind of ancillary operation and a source field. -/
  | branch (kind : UInt8)
  /-- A kind of ancillary operation and a source field that must name a register. -/
  | stack (kind : UInt8)
  /-- The whole byte, without operands. -/
  | fixed (byte : UInt8)
  deriving Repr, DecidableEq

def Layout.arity : Layout → Nat
  | move => 2
  | alu _ => 1
  | branch _ => 1
  | stack _ => 1
  | fixed _ => 0

inductive Op
  | mov
  | inc
  | dec
  | add
  | adc
  | sub
  | sbc
  | sft
  | cmp
  | not
  | and
  | or
  | xor
  | jmp
  | jz
  | je
  | jc
  | jn
  | push
  | pop
  | call
  | ret
  | hlt
  | noop
  deriving Repr, DecidableEq

namespace Op

def all : List Op :=
  [mov, inc, dec, add, adc, sub, sbc, sft, cmp, not, and, or, xor, jmp, jz, je, jc, jn, push, pop,
    call, ret, hlt, noop]

def mnemonic : Op → String
  | mov => "MOV"
  | inc => "INC"
  | dec => "DEC"
  | add => "ADD"
  | adc => "ADC"
  | sub => "SUB"
  | sbc => "SBC"
  | sft => "SFT"
  | cmp => "CMP"
  | not => "NOT"
  | and => "AND"
  | or => "OR"
  | xor => "XOR"
  | jmp => "JMP"
  | jz => "JZ"
  | je => "JE"
  | jc => "JC"
  | jn => "JN"
  | push => "PUSH"
  | pop => "POP"
  | call => "CALL"
  | ret => "RET"
  | hlt => "HLT"
  | noop => "NOOP"

/-- The operation with exactly this mnemonic; letter case counts. -/
def ofMnemonic? (s : String) : Option Op := all.find? fun op => op.mnemonic = s

/-- The layout of an operation's head byte. No two operations share one. -/
def layout : Op → Layout
  | mov => .move
  | inc => .alu 0
  | dec => .alu 1
  | add => .alu 2
  | adc => .alu 3
  | sub => .alu 4
  | sbc => .alu 5
  | sft => .alu 6
  | cmp => .alu 7
  | not => .alu 8
  | and => .alu 9
  | or => .alu 10
  | xor => .alu 11
  | call => .branch 0
  | jz => .branch 1
  | je => .branch 2
  | jc => .branch 3
  | jn => .branch 4
  | jmp => .branch 5
  | push => .stack 6
  | pop => .stack 7
  | hlt => .fixed 0xF9
  | ret => .fixed 0xFA
  | noop => .fixed 0xFB

def family : Op → Family
  | mov => .move
  | inc | dec | add | adc | sub | sbc | sft | cmp | not | and | or | xor => .alu
  | jmp | jz | je | jc | jn => .jump
  | push | pop | call | ret | hlt | noop => .ancillary

def arity (op : Op) : Nat := op.layout.arity

def ofAluCode? (code : UInt8) : Option Op := all.find? fun op => op.layout = .alu code

/-- The ancillary operation of the given kind, of which the low three bits count. -/
def ofKind (kind : UInt8) : Op :=
  match kind.toNat % 8 with
  | 0 => call
  | 1 => jz
  | 2 => je
  | 3 => jc
  | 4 => jn
  | 5 => jmp
  | 6 => push
  | _ => pop

def ofFixed? (byte : UInt8) : Option Op := all.find? fun op => op.layout = .fixed byte

theorem mem_all (op : Op) : op ∈ all := by cases op <;> decide

theorem mnemonic_injective {x y : Op} (h : x.mnemonic = y.mnemonic) : x = y := by
  revert h
  cases x <;> cases y <;> decide

theorem layout_injective {x y : Op} (h : x.layout = y.layout) : x = y := by
  revert h
  cases x <;> cases y <;> decide

theorem find?_all_eq_some_iff (p : Op → Bool) (op : Op)
    (h : ∀ x y, p x = true → p y = true → x = y) : all.find? p = some op ↔ p op = true := by
  constructor
  · exact List.find?_some
  · intro hp
    cases hf : all.find? p with
    | none => exact absurd hp (List.find?_eq_none.1 hf op (mem_all op))
    | some x => rw [h x op (List.find?_some hf) hp]

theorem ofMnemonic?_eq_some_iff {s : String} {op : Op} :
    ofMnemonic? s = some op ↔ op.mnemonic = s := by
  simpa [ofMnemonic?] using find?_all_eq_some_iff (fun op => op.mnemonic = s) op
    (fun x y hx hy => mnemonic_injective (by simp_all))

theorem ofAluCode?_eq_some_iff {code : UInt8} {op : Op} :
    ofAluCode? code = some op ↔ op.layout = .alu code := by
  simpa [ofAluCode?] using find?_all_eq_some_iff (fun op => op.layout = .alu code) op
    (fun x y hx hy => layout_injective (by simp_all))

theorem ofFixed?_eq_some_iff {byte : UInt8} {op : Op} :
    ofFixed? byte = some op ↔ op.layout = .fixed byte := by
  simpa [ofFixed?] using find?_all_eq_some_iff (fun op => op.layout = .fixed byte) op
    (fun x y hx hy => layout_injective (by simp_all))

end Op

end Breadboard
