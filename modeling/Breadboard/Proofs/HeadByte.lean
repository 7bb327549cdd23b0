import Mathlib.Tactic.IntervalCases
import Breadboard.Proofs.Measure

/-! Head bytes and what they fix. A head byte is a number in base eight: the source code is its last
digit, and the digits in front of it are the arithmetic code, the destination or the kind. So every
field can be read back off the byte that it was put into, and a byte that can be read is put together
again from what was read. -/

set_option autoImplicit false

namespace Breadboard

theorem toNat_aluByte {code src : UInt8} (hc : code.toNat < 16) (hs : src.toNat < 8) :
    (aluByte code src).toNat = 8 * code.toNat + src.toNat := by
  have hall : ∀ c < 16, ∀ s < 8,
      (aluByte (.ofNat c) (.ofNat s)).toNat = 8 * c + s := by decide
  simpa using hall _ hc _ hs

theorem toNat_moveByte {dest src : UInt8} (hd : dest.toNat < 8) (hs : src.toNat < 8) :
    (moveByte dest src).toNat = 128 + 8 * dest.toNat + src.toNat := by
  have hall : ∀ d < 8, ∀ s < 8,
      (moveByte (.ofNat d) (.ofNat s)).toNat = 128 + 8 * d + s := by decide
  simpa using hall _ hd _ hs

theorem toNat_ancillaryByte {kind src : UInt8} (hk : kind.toNat < 8) (hs : src.toNat < 8) :
    (ancillaryByte kind src).toNat = 192 + 8 * kind.toNat + src.toNat := by
  have hall : ∀ k < 8, ∀ s < 8,
      (ancillaryByte (.ofNat k) (.ofNat s)).toNat = 192 + 8 * k + s := by decide
  simpa using hall _ hk _ hs

theorem toNat_shiftRight_three (b : UInt8) : (b >>> 3).toNat = b.toNat / 8 := by
  rw [UInt8.toNat_shiftRight]
  exact Nat.shiftRight_eq_div_pow b.toNat 3

theorem aluByte_shiftRight {b : UInt8} (h : b.toNat < 128) :
    aluByte (b >>> 3) (.ofNat (b.toNat % 8)) = b := by
  have hc : (b >>> 3).toNat < 16 := by rw [toNat_shiftRight_three]; omega
  rw [← UInt8.toNat_inj, toNat_aluByte hc (by simp; omega), toNat_shiftRight_three]
  simp
  omega

theorem moveByte_shiftRight {b : UInt8} (hlow : 128 ≤ b.toNat) (hhigh : b.toNat < 192) :
    moveByte (.ofNat ((b >>> 3).toNat % 8)) (.ofNat (b.toNat % 8)) = b := by
  rw [← UInt8.toNat_inj, toNat_moveByte (by simp; omega) (by simp; omega), toNat_shiftRight_three]
  simp
  omega

theorem ancillaryByte_shiftRight {b : UInt8} (h : 192 ≤ b.toNat) :
    ancillaryByte (.ofNat ((b >>> 3).toNat % 8)) (.ofNat (b.toNat % 8)) = b := by
  have hb := b.toNat_lt
  rw [← UInt8.toNat_inj, toNat_ancillaryByte (by simp; omega) (by simp; omega),
    toNat_shiftRight_three]
  simp
  omega

namespace Field

theorem ofSourceCode_congr {a b : UInt8} (h : a.toNat % 8 = b.toNat % 8) :
    ofSourceCode a = ofSourceCode b := by
  unfold ofSourceCode
  rw [h]

theorem ofSourceCode_of_mod {f : Field} {c b : UInt8} (hc : f.sourceCode? = some c)
    (hb : b.toNat % 8 = c.toNat % 8) : ofSourceCode b = f := by
  rw [← ofSourceCode_of_sourceCode? hc]
  exact ofSourceCode_congr hb

theorem ofDestCode?_congr {a b : UInt8} (h : a.toNat % 8 = b.toNat % 8) :
    ofDestCode? a = ofDestCode? b := by
  unfold ofDestCode?
  rw [h]

theorem sourceCode?_lt {f : Field} {c : UInt8} (h : f.sourceCode? = some c) : c.toNat < 8 := by
  obtain ⟨r, i⟩ := f
  cases r <;> cases i <;> simp [sourceCode?] at h <;> subst h <;> decide

theorem destCode?_lt {f : Field} {c : UInt8} (h : f.destCode? = some c) : c.toNat < 8 := by
  obtain ⟨r, i⟩ := f
  cases r <;> cases i <;> simp [destCode?] at h <;> subst h <;> decide

theorem sourceCode?_ofSourceCode (c : UInt8) :
    (ofSourceCode c).sourceCode? = some (.ofNat (c.toNat % 8)) := by
  have hall : ∀ n < 8, (ofSourceCode (.ofNat n)).sourceCode? = some (.ofNat n) := by decide
  rw [← hall _ (Nat.mod_lt c.toNat (by decide))]
  congr 1
  apply ofSourceCode_congr
  simp

theorem destCode?_of_ofDestCode? {c : UInt8} {f : Field} (h : ofDestCode? c = some f) :
    f.destCode? = some (.ofNat (c.toNat % 8)) := by
  have hall : ∀ n < 8, ∀ f, ofDestCode? (.ofNat n) = some f → f.destCode? = some (.ofNat n) := by
    intro n hn f hf
    interval_cases n <;> cases hf <;> rfl
  apply hall _ (Nat.mod_lt c.toNat (by decide))
  rw [← h]
  apply ofDestCode?_congr
  simp

end Field

namespace Op

theorem alu_code_lt {op : Op} {code : UInt8} (h : op.layout = .alu code) : code.toNat < 12 := by
  cases op <;> cases h <;> decide

theorem branch_kind_lt {op : Op} {kind : UInt8} (h : op.layout = .branch kind) :
    kind.toNat < 6 := by
  cases op <;> cases h <;> decide

theorem ofKind_congr {a b : UInt8} (h : a.toNat % 8 = b.toNat % 8) : ofKind a = ofKind b := by
  unfold ofKind
  rw [h]

theorem ofKind_of_branch {op : Op} {kind : UInt8} (h : op.layout = .branch kind) :
    ofKind kind = op := by
  cases op <;> cases h <;> rfl

theorem layout_ofKind (kind : UInt8) :
    (ofKind kind).layout = if kind.toNat % 8 < 6 then .branch (.ofNat (kind.toNat % 8))
      else .stack (.ofNat (kind.toNat % 8)) := by
  have hall : ∀ n < 8, (ofKind (.ofNat n)).layout =
      if n < 6 then .branch (.ofNat n) else .stack (.ofNat n) := by decide
  rw [← hall _ (Nat.mod_lt kind.toNat (by decide))]
  congr 1
  apply ofKind_congr
  simp

theorem toNat_of_ofFixed? {byte : UInt8} {op : Op} (h : ofFixed? byte = some op) :
    249 ≤ byte.toNat ∧ byte.toNat ≤ 251 := by
  rw [ofFixed?_eq_some_iff] at h
  cases op <;> cases h <;> decide

theorem ofFixed?_of_branch {op : Op} {kind s : UInt8} (h : op.layout = .branch kind)
    (hs : s.toNat < 8) : ofFixed? (ancillaryByte kind s) = none := by
  by_contra hsome
  obtain ⟨owner, howner⟩ := Option.ne_none_iff_exists'.mp hsome
  have hrange := toNat_of_ofFixed? howner
  have hk := branch_kind_lt h
  rw [toNat_ancillaryByte (by omega) hs] at hrange
  omega

end Op

end Breadboard
