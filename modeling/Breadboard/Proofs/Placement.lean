import Mathlib.Algebra.GroupWithZero.Nat
import Mathlib.Data.List.Induction
import Mathlib.Data.List.Nodup
import Breadboard.Assembly.Program
import Breadboard.Proofs.Measure

/-! Placing statements. A program takes a measured statement exactly if the statement fits in behind
the others and its label can be bound there, and is then the same program with that statement at the
end. So a program is determined by the statements that it holds: each lies at the sum of the lengths
in front of it, and each label is bound where the last statement that declares it lies. -/

set_option autoImplicit false

namespace Breadboard

/-- A statement of some line, together with the number of its bytes. -/
structure Measured where
  statement : Statement
  length : Nat
  ofLine_eq : Statement.ofLine statement.line = .ok statement
  length_eq : statement.length = .ok length

namespace Measured

def label (m : Measured) : Option String := m.statement.line.label

def total (ms : List Measured) : Nat := (ms.map length).sum

/-- The number of bytes in front of the statement with the given index. -/
def offset (ms : List Measured) (i : Nat) : Nat := total (ms.take i)

def placed (ms : List Measured) : List Placed :=
  ms.mapIdx fun i m => ⟨offset ms i, m.length, m.statement⟩

/-- The statement with index `i` declares a name, and none behind it does. -/
def LastDeclares (ms : List Measured) (name : String) (i : Nat) : Prop :=
  ms[i]?.bind label = some name ∧ ∀ j, i < j → ms[j]?.bind label ≠ some name

/-- What statements have to satisfy for one program to hold them all. -/
structure Fit (config : Config) (ms : List Measured) : Prop where
  total_le : total ms ≤ addressSpace
  label_lt : ∀ i m, ms[i]? = some m → m.label.isSome → offset ms i < addressSpace
  labels_nodup : config.allowRedefinition = true ∨ (ms.filterMap label).Nodup

@[simp] theorem total_nil : total [] = 0 := rfl

theorem total_append (ms ns : List Measured) : total (ms ++ ns) = total ms + total ns := by
  simp [total]

theorem total_concat (ms : List Measured) (m : Measured) :
    total (ms ++ [m]) = total ms + m.length := by simp [total]

theorem offset_append_left {ms : List Measured} (ns : List Measured) {i : Nat}
    (h : i ≤ ms.length) : offset (ms ++ ns) i = offset ms i := by
  unfold offset
  rw [List.take_append_of_le_length h]

@[simp] theorem offset_length (ms : List Measured) : offset ms ms.length = total ms := by
  simp [offset]

theorem offset_concat_length (ms : List Measured) (m : Measured) :
    offset (ms ++ [m]) ms.length = total ms := by
  rw [offset_append_left _ (Nat.le_refl _), offset_length]

theorem offset_succ {ms : List Measured} {i : Nat} {m : Measured} (h : ms[i]? = some m) :
    offset ms (i + 1) = offset ms i + m.length := by
  unfold offset
  rw [List.take_add_one, h, Option.toList_some, total_concat]

theorem offset_le_total (ms : List Measured) (i : Nat) : offset ms i ≤ total ms := by
  have h := total_append (ms.take i) (ms.drop i)
  rw [List.take_append_drop] at h
  unfold offset
  omega

theorem offset_mono (ms : List Measured) {i j : Nat} (h : i ≤ j) : offset ms i ≤ offset ms j := by
  have hi := offset_le_total (ms.take j) i
  unfold offset at hi ⊢
  rwa [List.take_take, Nat.min_eq_left h] at hi

theorem existsUnique_offset {ms : List Measured} {a : Nat} (h : a < total ms) :
    ∃! i, i < ms.length ∧ offset ms i ≤ a ∧ a < offset ms (i + 1) := by
  have hex : ∃ i, i < ms.length ∧ offset ms i ≤ a ∧ a < offset ms (i + 1) := by
    induction ms using List.reverseRecOn with
    | nil => exact absurd h (Nat.not_lt_zero a)
    | append_singleton ms m ih =>
      rcases Nat.lt_or_ge a (total ms) with hlt | hge
      · obtain ⟨i, hi, hle, hgt⟩ := ih hlt
        rw [← offset_append_left [m] (Nat.le_of_lt hi)] at hle
        rw [← offset_append_left [m] (Nat.succ_le_of_lt hi)] at hgt
        exact ⟨i, by simp; omega, hle, hgt⟩
      · refine ⟨ms.length, by simp, by rwa [offset_concat_length], ?_⟩
        have hend := offset_length (ms ++ [m])
        rw [List.length_append, List.length_singleton] at hend
        rwa [hend]
  obtain ⟨i, hi, hle, hgt⟩ := hex
  refine ⟨i, ⟨hi, hle, hgt⟩, fun j ⟨_, hle', hgt'⟩ => ?_⟩
  rcases Nat.lt_trichotomy i j with hij | rfl | hij
  · have hle := offset_mono ms (show _ + 1 ≤ _ from hij)
    omega
  · rfl
  · have hle := offset_mono ms (show _ + 1 ≤ _ from hij)
    omega

theorem length_le_two (m : Measured) : m.length ≤ 2 := Statement.length_le_two m.length_eq

theorem length_eq_zero_iff (m : Measured) : m.length = 0 ↔ m.statement.line.isEmpty = true :=
  Statement.length_eq_zero_iff m.length_eq

theorem eq_of_statement_eq {m n : Measured} (h : m.statement = n.statement) : m = n := by
  obtain ⟨s, k, _, hk⟩ := m
  obtain ⟨t, l, _, hl⟩ := n
  obtain rfl : s = t := h
  obtain rfl : k = l := by simpa [hk] using hl
  rfl

theorem getElem?_placed (ms : List Measured) (i : Nat) :
    (placed ms)[i]? = ms[i]?.map fun m => ⟨offset ms i, m.length, m.statement⟩ := by
  simp [placed]

theorem placed_concat (ms : List Measured) (m : Measured) :
    placed (ms ++ [m]) = placed ms ++ [⟨total ms, m.length, m.statement⟩] := by
  unfold placed
  rw [List.mapIdx_concat, offset_concat_length]
  congr 1
  apply List.mapIdx_eq_mapIdx_iff.mpr
  intro i hi
  rw [offset_append_left _ (Nat.le_of_lt hi)]

def placedFrom (address : Nat) : List Measured → List Placed
  | [] => []
  | m :: ms => ⟨address, m.length, m.statement⟩ :: placedFrom (address + m.length) ms

theorem placedFrom_concat (address : Nat) (ms : List Measured) (m : Measured) :
    placedFrom address (ms ++ [m]) =
      placedFrom address ms ++ [⟨address + total ms, m.length, m.statement⟩] := by
  induction ms generalizing address with
  | nil => simp [placedFrom]
  | cons n ms ih => simp [placedFrom, ih, total, Nat.add_assoc]

theorem placed_eq_placedFrom (ms : List Measured) : placed ms = placedFrom 0 ms := by
  induction ms using List.reverseRecOn with
  | nil => rfl
  | append_singleton ms m ih => rw [placed_concat, placedFrom_concat, ih, Nat.zero_add]

/-- What does not depend on the addresses can be read off the statements. -/
theorem map_placed {β : Type} (ms : List Measured) {f : Placed → β} {g : Measured → β}
    (h : ∀ a m, f ⟨a, m.length, m.statement⟩ = g m) : (placed ms).map f = ms.map g := by
  apply List.ext_getElem?
  intro i
  rw [List.getElem?_map, getElem?_placed, List.getElem?_map]
  cases ms[i]? with
  | none => rfl
  | some m => exact congrArg some (h _ m)

theorem map_statement_placed (ms : List Measured) :
    (placed ms).map Placed.statement = ms.map statement := map_placed ms fun _ _ => rfl

theorem forall_mem_placed_iff {ms : List Measured} {P : Statement → Prop} :
    (∀ l ∈ placed ms, P l.statement) ↔ ∀ m ∈ ms, P m.statement := by
  rw [← List.forall_mem_map (f := Placed.statement), map_statement_placed, List.forall_mem_map]

theorem mem_placed_iff {ms : List Measured} {l : Placed} : l ∈ placed ms ↔
    ∃ i m, ms[i]? = some m ∧ l = ⟨offset ms i, m.length, m.statement⟩ := by
  rw [List.mem_iff_getElem?]
  simp only [getElem?_placed, Option.map_eq_some_iff, eq_comm (a := l)]

theorem not_lastDeclares_nil (name : String) (i : Nat) : ¬ LastDeclares [] name i := by
  simp [LastDeclares]

theorem LastDeclares.lt_length {ms : List Measured} {name : String} {i : Nat}
    (h : LastDeclares ms name i) : i < ms.length := by
  by_contra hi
  have hnone : ms[i]? = none := List.getElem?_eq_none (by omega)
  simp [LastDeclares, hnone] at h

theorem lastDeclares_concat_iff (ms : List Measured) (m : Measured) (name : String) (i : Nat) :
    LastDeclares (ms ++ [m]) name i ↔
      (m.label = some name ∧ i = ms.length) ∨ (m.label ≠ some name ∧ LastDeclares ms name i) := by
  have hlast : (ms ++ [m])[ms.length]? = some m := List.getElem?_concat_length
  constructor
  · intro h
    have hi := h.lt_length
    rw [List.length_append, List.length_singleton] at hi
    rcases Nat.lt_succ_iff_lt_or_eq.mp hi with hlt | rfl
    · refine Or.inr ⟨by simpa [hlast] using h.2 _ hlt, ?_, fun j hj => ?_⟩
      · simpa [List.getElem?_append_left hlt] using h.1
      · by_cases hjl : j < ms.length
        · simpa [List.getElem?_append_left hjl] using h.2 j hj
        · simp [List.getElem?_eq_none (Nat.le_of_not_lt hjl)]
    · exact Or.inl ⟨by simpa [hlast] using h.1, rfl⟩
  · rintro (⟨hm, rfl⟩ | ⟨hm, h⟩)
    · refine ⟨by simpa [hlast] using hm, fun j hj => ?_⟩
      rw [List.getElem?_eq_none (by simp; omega)]
      simp
    · have hi := h.lt_length
      refine ⟨by simpa [List.getElem?_append_left hi] using h.1, fun j hj => ?_⟩
      rcases Nat.lt_trichotomy j ms.length with hlt | rfl | hgt
      · simpa [List.getElem?_append_left hlt] using h.2 j hj
      · simpa [hlast] using hm
      · rw [List.getElem?_eq_none (by simp; omega)]
        simp

theorem exists_lastDeclares_iff (ms : List Measured) (name : String) :
    (∃ i, LastDeclares ms name i) ↔ ∃ m ∈ ms, m.label = some name := by
  induction ms using List.reverseRecOn with
  | nil => simp [not_lastDeclares_nil]
  | append_singleton ms m ih =>
    simp only [lastDeclares_concat_iff, exists_or, exists_and_left, ih, exists_eq, and_true,
      List.mem_append, List.mem_singleton]
    grind

theorem fit_nil (config : Config) : Fit config [] :=
  ⟨Nat.zero_le _, by simp, Or.inr List.nodup_nil⟩

theorem fit_concat_iff (config : Config) (ms : List Measured) (m : Measured) :
    Fit config (ms ++ [m]) ↔ Fit config ms ∧ total ms + m.length ≤ addressSpace ∧
      ∀ name, m.label = some name → total ms < addressSpace ∧
        (config.allowRedefinition = true ∨ ∀ n ∈ ms, n.label ≠ some name) := by
  have hlast : (ms ++ [m])[ms.length]? = some m := List.getElem?_concat_length
  have hnodup : ((ms ++ [m]).filterMap label).Nodup ↔ (ms.filterMap label).Nodup ∧
      ∀ name, m.label = some name → ∀ n ∈ ms, n.label ≠ some name := by
    rw [List.filterMap_append]
    cases hm : m.label with
    | none => simp [hm]
    | some name =>
      simp only [List.filterMap_cons, hm, List.filterMap_nil, ← List.concat_eq_append,
        List.nodup_concat, List.mem_filterMap, Option.some.injEq]
      grind
  constructor
  · intro h
    have htotal := h.total_le
    rw [total_concat] at htotal
    refine ⟨⟨by omega, fun i n hi hn => ?_, ?_⟩, htotal, fun name hname => ⟨?_, ?_⟩⟩
    · have hlt : i < ms.length := (List.getElem?_eq_some_iff.mp hi).1
      rw [← offset_append_left [m] (Nat.le_of_lt hlt)]
      exact h.label_lt i n (by rwa [List.getElem?_append_left hlt]) hn
    · exact h.labels_nodup.imp_right fun hn => (hnodup.mp hn).1
    · rw [← offset_concat_length ms m]
      exact h.label_lt _ m hlast (by simp [hname])
    · exact h.labels_nodup.imp_right fun hn => (hnodup.mp hn).2 name hname
  · rintro ⟨h, htotal, hlabel⟩
    refine ⟨by rwa [total_concat], fun i n hi hn => ?_, ?_⟩
    · rcases Nat.lt_or_ge i ms.length with hlt | hge
      · rw [offset_append_left [m] (Nat.le_of_lt hlt)]
        exact h.label_lt i n (by rwa [List.getElem?_append_left hlt] at hi) hn
      · have hlen := (List.getElem?_eq_some_iff.mp hi).1
        rw [List.length_append, List.length_singleton] at hlen
        obtain rfl : i = ms.length := by omega
        obtain rfl : m = n := by simpa [hlast] using hi
        obtain ⟨name, hname⟩ := Option.isSome_iff_exists.mp hn
        rw [offset_concat_length]
        exact (hlabel name hname).1
    · rcases h.labels_nodup with hallow | hn
      · exact Or.inl hallow
      · by_cases hallow : config.allowRedefinition = true
        · exact Or.inl hallow
        · exact Or.inr (hnodup.mpr ⟨hn, fun name hname => (hlabel name hname).2.resolve_left hallow⟩)

theorem Fit.of_append {config : Config} {ms ns : List Measured} (h : Fit config (ms ++ ns)) :
    Fit config ms := by
  induction ns using List.reverseRecOn with
  | nil => simpa using h
  | append_singleton ns n ih =>
    rw [← List.append_assoc, fit_concat_iff] at h
    exact ih h.1

end Measured

end Breadboard
