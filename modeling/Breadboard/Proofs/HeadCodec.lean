import Breadboard.Proofs.HeadByte
import Breadboard.Proofs.OperandText

/-! Heads of encodings. The head byte of an encoding reads back as the operation and the fields of its
operands, and a byte that reads as a head is the head byte of the encoding of such operands. So the
checks that refuse operands and the checks that refuse bytes leave the same instructions. -/

set_option autoImplicit false

namespace Breadboard

/-- The operand that a field stands for, where `v` is the byte behind the head byte. -/
def Field.operand (v : UInt8) (f : Field) : Operand :=
  ⟨if f.fetches then .immediate (.literal v) else .register f.register, f.indirect⟩

/-- The fields of a head, the one that is written first. -/
def Head.fields (h : Head) : List Field := h.dest.toList ++ h.src.toList

theorem Head.fetches_eq (h : Head) : h.fetches = h.fields.any Field.fetches := by
  obtain ⟨op, dest, src⟩ := h
  cases dest <;> cases src <;> simp [Head.fetches, Head.fields]

namespace Operand

theorem fetches_field {o : Operand} (h : o.Named) : o.field.fetches = o.immediate?.isSome := by
  obtain ⟨atom, i⟩ := o
  cases atom with
  | register r => cases r <;> simp_all [Named, field, Field.fetches, immediate?]
  | immediate i => rfl

theorem indirect_field (o : Operand) : o.field.indirect = o.indirect := by
  obtain ⟨atom, i⟩ := o
  cases atom <;> rfl

theorem field_operand (v : UInt8) (f : Field) : (f.operand v).field = f := by
  obtain ⟨r, i⟩ := f
  cases r <;> rfl

theorem immediate?_operand (v : UInt8) (f : Field) :
    (f.operand v).immediate? = if f.fetches then some (.literal v) else none := by
  obtain ⟨r, i⟩ := f
  cases r <;> rfl

end Operand

namespace Head

theorem ofByte?_eq (byte : UInt8) : ofByte? byte =
    if byte.toNat < 128 then
      (Op.ofAluCode? (byte >>> 3)).map fun op => ⟨op, none, some (Field.ofSourceCode byte)⟩
    else if byte.toNat < 192 then
      (Field.ofDestCode? (byte >>> 3)).bind fun dest => move? dest (Field.ofSourceCode byte)
    else match Op.ofFixed? byte with
      | some op => some ⟨op, none, none⟩
      | none => ancillary? (Op.ofKind (byte >>> 3)) (Field.ofSourceCode byte) := by
  simp only [ofByte?, UInt8.lt_iff_toNat_lt]
  rfl

theorem ofByte?_moveByte {dest src : Field} {d s : UInt8} (hd : dest.destCode? = some d)
    (hs : src.sourceCode? = some s) : ofByte? (moveByte d s) = move? dest src := by
  have hdl := Field.destCode?_lt hd
  have hsl := Field.sourceCode?_lt hs
  have hn := toNat_moveByte hdl hsl
  have hdest : Field.ofDestCode? (moveByte d s >>> 3) = some dest := by
    rw [← Field.ofDestCode?_of_destCode? hd]
    apply Field.ofDestCode?_congr
    rw [toNat_shiftRight_three, hn]
    omega
  rw [ofByte?_eq, if_neg (by omega), if_pos (by omega), hdest,
    Field.ofSourceCode_of_mod hs (by omega)]
  rfl

theorem ofByte?_aluByte {op : Op} {code s : UInt8} {src : Field} (hop : op.layout = .alu code)
    (hs : src.sourceCode? = some s) : ofByte? (aluByte code s) = some ⟨op, none, some src⟩ := by
  have hcl := Op.alu_code_lt hop
  have hsl := Field.sourceCode?_lt hs
  have hn := toNat_aluByte (show code.toNat < 16 by omega) hsl
  have hcode : aluByte code s >>> 3 = code := by
    rw [← UInt8.toNat_inj, toNat_shiftRight_three, hn]
    omega
  rw [ofByte?_eq, if_pos (by omega), hcode, Op.ofAluCode?_eq_some_iff.mpr hop,
    Field.ofSourceCode_of_mod hs (by omega)]
  rfl

theorem ofByte?_ancillaryByte {kind s : UInt8} {src : Field} (hk : kind.toNat < 8)
    (hs : src.sourceCode? = some s) (hfixed : Op.ofFixed? (ancillaryByte kind s) = none) :
    ofByte? (ancillaryByte kind s) = ancillary? (Op.ofKind kind) src := by
  have hsl := Field.sourceCode?_lt hs
  have hn := toNat_ancillaryByte hk hsl
  have hkind : Op.ofKind (ancillaryByte kind s >>> 3) = Op.ofKind kind := by
    apply Op.ofKind_congr
    rw [toNat_shiftRight_three, hn]
    omega
  rw [ofByte?_eq, if_neg (by omega), if_neg (by omega), hfixed, hkind,
    Field.ofSourceCode_of_mod hs (by omega)]

theorem ofByte?_fixed {op : Op} {byte : UInt8} (hop : op.layout = .fixed byte) :
    ofByte? byte = some ⟨op, none, none⟩ := by
  cases op <;> cases hop <;> rfl

theorem ancillary?_of_branch {op : Op} {kind : UInt8} (hop : op.layout = .branch kind)
    (f : Field) : ancillary? op f = some ⟨op, none, some f⟩ := by
  cases op <;> cases hop <;> rfl

theorem ofByte?_of_branch {op : Op} {kind s : UInt8} {src : Field} (hop : op.layout = .branch kind)
    (hs : src.sourceCode? = some s) :
    ofByte? (ancillaryByte kind s) = some ⟨op, none, some src⟩ := by
  have hk := Op.branch_kind_lt hop
  have hfixed := Op.ofFixed?_of_branch hop (Field.sourceCode?_lt hs)
  rw [ofByte?_ancillaryByte (by omega) hs hfixed, Op.ofKind_of_branch hop, ancillary?_of_branch hop]

end Head

namespace Encoding

theorem ofByte?_of_move {dest src : Operand} {e : Encoding} (hd : dest.Named) (hs : src.Named)
    (h : move dest src = .ok e) :
    Head.ofByte? e.head = some ⟨.mov, some dest.field, some src.field⟩ := by
  unfold move at h
  split at h
  · cases h
  next hindirect =>
  split at h
  · cases h
  next himmediate =>
  split at h
  · cases h
  · cases h
  next d s hd' hs' =>
  cases h
  rw [Head.ofByte?_moveByte hd' hs']
  unfold Head.move?
  rw [Operand.indirect_field, Operand.indirect_field, Operand.fetches_field hd,
    Operand.fetches_field hs]
  rw [Operand.isRegister_eq, Operand.isRegister_eq, Option.not_isNone, Option.not_isNone]
    at himmediate
  simp only [Bool.not_eq_true] at hindirect himmediate
  simp [hindirect, himmediate]

theorem ofByte?_of_stack {op : Op} {kind : UInt8} {o : Operand} {e : Encoding} (ho : o.Named)
    (hop : op.layout = .stack kind) (h : stack op kind o = .ok e) :
    ∃ head, Head.ofByte? e.head = some head ∧ head.op = op ∧ head.fields = [o.field] := by
  unfold stack at h
  split at h
  · cases h
  next hregister =>
  split at h
  · cases h
  next hwritable =>
  split at h
  · next code hcode =>
    simp only [stackByte] at h
    split at h
    · cases h
    next hfixed =>
    cases h
    have hfetches : o.field.fetches = false := by
      rw [Operand.fetches_field ho]
      simpa [Operand.isRegister_eq] using hregister
    have hkind : kind.toNat < 8 := by cases op <;> cases hop <;> decide
    rw [Head.ofByte?_ancillaryByte hkind hcode hfixed]
    cases op <;> cases hop
    · exact ⟨⟨.push, none, some o.field⟩, by simp [Op.ofKind, Head.ancillary?, hfetches], rfl, rfl⟩
    · have hdest : o.field.destCode?.isNone = false := by
        rw [Option.isNone_eq_false_iff, Option.isSome_iff_ne_none]
        simpa using hwritable
      exact ⟨⟨.pop, some o.field, none⟩, by simp [Op.ofKind, Head.ancillary?, hfetches, hdest],
        rfl, rfl⟩
  · split at h <;> cases h

theorem ofByte?_of {op : Op} {operands : List Operand} {e : Encoding}
    (hn : ∀ o ∈ operands, o.Named) (h : of op operands = .ok e) :
    ∃ head, Head.ofByte? e.head = some head ∧ head.op = op ∧
      head.fields = operands.map Operand.field := by
  unfold of at h
  split at h
  · next dest src hop =>
    obtain rfl : op = .mov := Op.layout_injective hop
    exact ⟨_, ofByte?_of_move (hn dest (by simp)) (hn src (by simp)) h, rfl, rfl⟩
  · next code src hop =>
    unfold source at h
    split at h
    · cases h
    · next s hs =>
      cases h
      exact ⟨_, Head.ofByte?_aluByte hop hs, rfl, rfl⟩
  · next kind src hop =>
    unfold source at h
    split at h
    · cases h
    · next s hs =>
      cases h
      exact ⟨_, Head.ofByte?_of_branch hop hs, rfl, rfl⟩
  · next kind o hop => exact ofByte?_of_stack (hn o (by simp)) hop h
  · next byte hop =>
    cases h
    exact ⟨_, Head.ofByte?_fixed hop, rfl, rfl⟩
  · cases h

theorem source_operand (op : Op) (head : UInt8 → UInt8) {f : Field} {c : UInt8}
    (h : f.sourceCode? = some c) (v : UInt8) : source op head (f.operand v) =
      .ok ⟨head c, if f.fetches then some (.literal v) else none⟩ := by
  unfold source
  rw [Operand.field_operand, h, Operand.immediate?_operand]

theorem move_operand {dest src : Field} {head : Head} {d s : UInt8}
    (hd : dest.destCode? = some d) (hs : src.sourceCode? = some s)
    (h : Head.move? dest src = some head) (v : UInt8) :
    of head.op (head.fields.map (Field.operand v)) =
      .ok ⟨moveByte d s, if head.fetches then some (.literal v) else none⟩ := by
  unfold Head.move? at h
  split at h
  · cases h
  next hfree =>
  cases h
  simp only [Bool.or_eq_true, not_or, Bool.not_eq_true] at hfree
  have hindirect : ((dest.operand v).indirect && (src.operand v).indirect) = false := hfree.1
  have himmediate : (!(dest.operand v).isRegister && !(src.operand v).isRegister) = false := by
    rw [Operand.isRegister_eq, Operand.isRegister_eq, Operand.immediate?_operand,
      Operand.immediate?_operand]
    cases hd : dest.fetches <;> cases hs : src.fetches <;> simp_all
  change move (dest.operand v) (src.operand v) = _
  unfold move
  rw [hindirect, himmediate, Operand.field_operand, Operand.field_operand, hd, hs,
    Operand.immediate?_operand, Operand.immediate?_operand]
  cases hd : dest.fetches <;> cases hs : src.fetches <;> simp_all [Head.fetches]

theorem stack_operand {op : Op} {kind c : UInt8} {f : Field} {head : Head}
    (hop : op.layout = .stack kind) (hc : f.sourceCode? = some c)
    (hfixed : Op.ofFixed? (ancillaryByte kind c) = none)
    (h : Head.ancillary? op f = some head) (v : UInt8) :
    head.op = op ∧ head.fields = [f] ∧ f.fetches = false ∧
      stack op kind (f.operand v) = .ok ⟨ancillaryByte kind c, none⟩ := by
  have hregister (hf : f.fetches = false) : (f.operand v).isRegister = true := by
    rw [Operand.isRegister_eq, Operand.immediate?_operand, hf]
    rfl
  cases op <;> cases hop
  · simp only [Head.ancillary?] at h
    split at h
    · cases h
    next hf =>
    cases h
    have hf : f.fetches = false := by simpa using hf
    refine ⟨rfl, rfl, hf, ?_⟩
    simp [stack, hregister hf, Operand.field_operand, hc, stackByte, hfixed]
  · simp only [Head.ancillary?] at h
    split at h
    · cases h
    next hf =>
    cases h
    simp only [Bool.or_eq_true, not_or, Bool.not_eq_true] at hf
    refine ⟨rfl, rfl, hf.1, ?_⟩
    simp [stack, hregister hf.1, Operand.field_operand, hc, stackByte, hfixed, hf.2]

/-- A byte that reads as a head is the head byte of the operation on the operands that the fields
stand for. -/
theorem of_fields {byte : UInt8} {head : Head} (h : Head.ofByte? byte = some head) (v : UInt8) :
    of head.op (head.fields.map (Field.operand v)) =
      .ok ⟨byte, if head.fetches then some (.literal v) else none⟩ := by
  have hsrc := Field.sourceCode?_ofSourceCode byte
  rw [Head.ofByte?_eq] at h
  split at h
  · next hlow =>
    obtain ⟨op, hop, rfl⟩ := Option.map_eq_some_iff.mp h
    rw [Op.ofAluCode?_eq_some_iff] at hop
    have hsource := source_operand op (aluByte (byte >>> 3)) hsrc v
    rw [aluByte_shiftRight hlow] at hsource
    simpa [of, hop, Head.fields, Head.fetches] using hsource
  next hlow =>
  split at h
  · next hhigh =>
    obtain ⟨dest, hdest, hmove⟩ := Option.bind_eq_some_iff.mp h
    have hmove := move_operand (Field.destCode?_of_ofDestCode? hdest) hsrc hmove v
    rwa [moveByte_shiftRight (Nat.le_of_not_lt hlow) hhigh] at hmove
  next hhigh =>
  split at h
  · next op hop =>
    cases h
    rw [Op.ofFixed?_eq_some_iff] at hop
    simp [of, hop, Head.fields, Head.fetches]
  next hfixed =>
  have hbyte := ancillaryByte_shiftRight (Nat.le_of_not_lt hhigh)
  have hlayout := Op.layout_ofKind (byte >>> 3)
  split at hlayout
  · rw [Head.ancillary?_of_branch hlayout] at h
    cases h
    have hsource := source_operand (Op.ofKind (byte >>> 3))
      (ancillaryByte (.ofNat ((byte >>> 3).toNat % 8))) hsrc v
    rw [hbyte] at hsource
    simpa [of, hlayout, Head.fields, Head.fetches] using hsource
  · rw [← hbyte] at hfixed
    obtain ⟨hop, hfields, hfetches, hstack⟩ := stack_operand hlayout hsrc hfixed h v
    rw [hbyte] at hstack
    simp only [Head.fetches_eq, hop, hfields, List.map_cons, List.map_nil, of, hlayout, hstack]
    simp [hfetches]

end Encoding

end Breadboard
