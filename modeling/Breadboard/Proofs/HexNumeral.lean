import Mathlib.Data.List.Basic
import Breadboard.Proofs.OperandText

/-! Hexadecimal numerals. A numeral of at least two digits is that of the number without its last digit,
and the last digit behind it. So no two numbers have the same numeral, filled up or not. -/

set_option autoImplicit false

namespace Breadboard.Text

/-- The hexadecimal digits, each at the place of its value. -/
def hexDigits : List Char :=
  ['0', '1', '2', '3', '4', '5', '6', '7', '8', '9', 'a', 'b', 'c', 'd', 'e', 'f']

theorem getElem?_hexDigits : ∀ n < 16, hexDigits[n]? = some (Nat.digitChar n) := by decide

theorem digitChar_inj : ∀ a < 16, ∀ b < 16, Nat.digitChar a = Nat.digitChar b → a = b := by decide

theorem mod_eq_of_digitChar {a b : Nat}
    (h : Nat.digitChar (a % 16) = Nat.digitChar (b % 16)) : a % 16 = b % 16 :=
  digitChar_inj _ (Nat.mod_lt a (by decide)) _ (Nat.mod_lt b (by decide)) h

theorem toDigits_inj {a b : Nat} (h : Nat.toDigits 16 a = Nat.toDigits 16 b) : a = b := by
  have hsmall (n : Nat) : (Nat.toDigits 16 n).length ≤ 1 ↔ n < 16 :=
    Nat.length_toDigits_le_iff (by decide) (by decide)
  induction a using Nat.strongRecOn generalizing b with
  | ind a ih =>
    have hboth : a < 16 ↔ b < 16 := by rw [← hsmall a, h, hsmall b]
    rcases Nat.lt_or_ge a 16 with ha | ha
    · have hb := hboth.mp ha
      rw [Nat.toDigits_of_lt_base ha, Nat.toDigits_of_lt_base hb] at h
      exact digitChar_inj a ha b hb (List.singleton_inj.mp h)
    · have hb : 16 ≤ b := Nat.le_of_not_lt (mt hboth.mpr (Nat.not_lt.mpr ha))
      rw [Nat.toDigits_of_base_le (by decide) ha, Nat.toDigits_of_base_le (by decide) hb] at h
      obtain ⟨hfront, hlast⟩ := List.append_inj' h rfl
      have hdiv := ih (a / 16) (by omega) hfront
      have hmod := mod_eq_of_digitChar (List.singleton_inj.mp hlast)
      omega

theorem toList_hex_two (n : Nat) :
    (hex 2 n).toList = Nat.toDigits 16 (n / 16) ++ [Nat.digitChar (n % 16)] := by
  have hpos : 0 < (Nat.toDigits 16 (n / 16)).length := Nat.length_toDigits_pos
  rw [hex, String.toList_ofList]
  rcases Nat.lt_or_ge n 16 with hn | hn
  · have hzero : n / 16 = 0 := by omega
    rw [Nat.toDigits_of_lt_base hn, hzero, Nat.mod_eq_of_lt hn]
    rfl
  · have hpad : 2 - (Nat.toDigits 16 (n / 16) ++ [Nat.digitChar (n % 16)]).length = 0 := by
      rw [List.length_append, List.length_singleton]
      omega
    rw [Nat.toDigits_of_base_le (by decide) hn, List.leftpad, hpad]
    rfl

/-- The numeral of a byte has two digits, of the values that are put together to its own. -/
theorem exists_hex_two {n : Nat} (h : n < 256) : ∃ high low,
    hexDigits[n / 16]? = some high ∧ hexDigits[n % 16]? = some low ∧
      (hex 2 n).toList = [high, low] := by
  have hdiv : n / 16 < 16 := by omega
  refine ⟨_, _, getElem?_hexDigits _ hdiv, getElem?_hexDigits _ (Nat.mod_lt n (by decide)), ?_⟩
  rw [toList_hex_two, Nat.toDigits_of_lt_base hdiv]
  rfl

theorem length_hex_two {n : Nat} (h : n < 256) : (hex 2 n).toList.length = 2 := by
  obtain ⟨_, _, _, _, hlist⟩ := exists_hex_two h
  rw [hlist]
  rfl

theorem hex_two_inj {a b : Nat} (h : hex 2 a = hex 2 b) : a = b := by
  have hlist := congrArg String.toList h
  rw [toList_hex_two, toList_hex_two] at hlist
  obtain ⟨hfront, hlast⟩ := List.append_inj' hlist rfl
  have hdiv := toDigits_inj hfront
  have hmod := mod_eq_of_digitChar (List.singleton_inj.mp hlast)
  omega

theorem exists_address (b : UInt8) : ∃ high low,
    hexDigits[b.toNat / 16]? = some high ∧ hexDigits[b.toNat % 16]? = some low ∧
      address b.toNat = String.ofList ['0', 'x', high, low] := by
  obtain ⟨high, low, hhigh, hlow, hlist⟩ := exists_hex_two b.toNat_lt
  refine ⟨high, low, hhigh, hlow, ?_⟩
  rw [← String.toList_inj, toList_address, hlist, String.toList_ofList]

theorem address_inj {a b : Nat} (h : address a = address b) : a = b := by
  have hlist := congrArg String.toList h
  rw [toList_address, toList_address] at hlist
  simp only [List.cons.injEq, true_and] at hlist
  exact hex_two_inj (String.toList_inj.mp hlist)

end Breadboard.Text
