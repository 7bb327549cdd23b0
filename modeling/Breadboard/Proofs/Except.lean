import Mathlib.Data.List.Forall2

/-! Computations that end with a value or with a fault. A computation in steps ends with a value
exactly if each of its steps does, and so does a list of computations. -/

set_option autoImplicit false

namespace Breadboard.Except

universe u v w x
variable {ε : Type u} {α : Type v} {β : Type w}

theorem bind_eq_ok_iff {x : Except ε α} {f : α → Except ε β} {b : β} :
    x.bind f = .ok b ↔ ∃ a, x = .ok a ∧ f a = .ok b := by
  cases x <;> simp [Except.bind]

theorem map_eq_ok_iff {x : Except ε α} {f : α → β} {b : β} :
    x.map f = .ok b ↔ ∃ a, x = .ok a ∧ f a = b := by
  cases x <;> simp [Except.map]

theorem map_eq_error_iff {x : Except ε α} {f : α → β} {e : ε} :
    x.map f = .error e ↔ x = .error e := by
  cases x <;> simp [Except.map]

theorem mapError_eq_ok_iff {ε' : Type x} {x : Except ε α} {f : ε → ε'} {a : α} :
    x.mapError f = .ok a ↔ x = .ok a := by
  cases x <;> simp [Except.mapError]

theorem exists_map_eq_ok_iff {x : Except ε α} {f : α → β} :
    (∃ b, x.map f = .ok b) ↔ ∃ a, x = .ok a := by
  cases x <;> simp [Except.map]

theorem mapM_cons (f : α → Except ε β) (a : α) (l : List α) :
    (a :: l).mapM f = (f a).bind fun b => (l.mapM f).map (b :: ·) := by
  rw [List.mapM_cons]
  cases f a with
  | error e => rfl
  | ok b => cases h : l.mapM f <;> rfl

theorem mapM_eq_ok_iff {f : α → Except ε β} {l : List α} {bs : List β} :
    l.mapM f = .ok bs ↔ l.Forall₂ (fun a b => f a = .ok b) bs := by
  induction l generalizing bs with
  | nil =>
    rw [List.mapM_nil, List.forall₂_nil_left_iff]
    exact ⟨fun h => by cases h; rfl, fun h => by subst h; rfl⟩
  | cons a l ih =>
    rw [mapM_cons, bind_eq_ok_iff, List.forall₂_cons_left_iff]
    simp only [map_eq_ok_iff, ih]
    grind

theorem exists_of_forall₂ {r : α → β → Prop} {l : List α} {bs : List β} (h : l.Forall₂ r bs) :
    ∀ a ∈ l, ∃ b ∈ bs, r a b := by
  induction h with
  | nil => simp
  | @cons a b _ _ hab _ ih =>
    rw [List.forall_mem_cons]
    refine ⟨⟨b, List.mem_cons_self, hab⟩, fun a ha => ?_⟩
    obtain ⟨b, hb, hab⟩ := ih a ha
    exact ⟨b, List.mem_cons_of_mem _ hb, hab⟩

theorem forall_of_mapM {f : α → Except ε β} {l : List α} {bs : List β} {p : β → Prop}
    (h : l.mapM f = .ok bs) (hp : ∀ a b, f a = .ok b → p b) : ∀ b ∈ bs, p b := by
  intro b hb
  obtain ⟨a, _, hab⟩ := exists_of_forall₂ (mapM_eq_ok_iff.mp h).flip b hb
  exact hp a b hab

theorem map_eq_of_mapM {γ : Type x} {f : α → Except ε β} {l : List α} {bs : List β} {g : β → γ}
    {k : α → γ} (h : l.mapM f = .ok bs) (hgk : ∀ a ∈ l, ∀ b, f a = .ok b → g b = k a) :
    bs.map g = l.map k := by
  replace h := mapM_eq_ok_iff.mp h
  induction h with
  | nil => rfl
  | @cons a b l bs hab _ ih =>
    rw [List.forall_mem_cons] at hgk
    rw [List.map_cons, List.map_cons, hgk.1 b hab, ih hgk.2]

theorem exists_mapM_eq_ok_iff {f : α → Except ε β} {l : List α} :
    (∃ bs, l.mapM f = .ok bs) ↔ ∀ a ∈ l, ∃ b, f a = .ok b := by
  induction l with
  | nil => exact ⟨fun _ _ h => (List.not_mem_nil h).elim, fun _ => ⟨[], rfl⟩⟩
  | cons a l ih =>
    rw [List.forall_mem_cons, ← ih]
    simp only [mapM_cons, bind_eq_ok_iff, map_eq_ok_iff]
    grind

theorem mapM_eq_error_iff {f : α → Except ε β} {l : List α} {e : ε} :
    l.mapM f = .error e ↔ ∃ front a back, l = front ++ a :: back ∧
      (∀ x ∈ front, ∃ b, f x = .ok b) ∧ f a = .error e := by
  induction l with
  | nil => simp [pure, Except.pure]
  | cons a l ih =>
    rw [mapM_cons]
    constructor
    · intro h
      cases ha : f a with
      | error fault =>
        rw [ha] at h
        cases h
        exact ⟨[], a, l, rfl, by simp, ha⟩
      | ok b =>
        rw [ha] at h
        obtain ⟨front, x, back, rfl, hfront, hx⟩ := ih.mp (map_eq_error_iff.mp h)
        exact ⟨a :: front, x, back, rfl, List.forall_mem_cons.mpr ⟨⟨b, ha⟩, hfront⟩, hx⟩
    · rintro ⟨front, x, back, hl, hfront, hx⟩
      rcases List.cons_eq_append_iff.mp hl with ⟨rfl, hcons⟩ | ⟨front, rfl, rfl⟩
      · obtain ⟨rfl, rfl⟩ := List.cons.inj hcons
        rw [hx]
        rfl
      · obtain ⟨⟨b, hb⟩, hfront⟩ := List.forall_mem_cons.mp hfront
        rw [hb]
        exact map_eq_error_iff.mpr (ih.mpr ⟨front, x, back, rfl, hfront, hx⟩)

section Specified
variable {x : Except ε α} {value : α → Prop} {fault : ε → Prop}
  (hvalue : ∀ a, value a → x = .ok a) (hfault : ∀ e, fault e → x = .error e)
  (htotal : (∃ a, value a) ∨ ∃ e, fault e)
include hvalue hfault htotal

/-- Where some value or some fault is due, and what is due is given, nothing else is given. -/
theorem eq_ok_iff_of_total {a : α} : x = .ok a ↔ value a := by
  refine ⟨fun h => ?_, hvalue a⟩
  rcases htotal with ⟨a', ha⟩ | ⟨e, he⟩
  · obtain rfl : a' = a := by simpa [hvalue a' ha] using h
    exact ha
  · rw [hfault e he] at h
    cases h

theorem eq_error_iff_of_total {e : ε} : x = .error e ↔ fault e := by
  refine ⟨fun h => ?_, hfault e⟩
  rcases htotal with ⟨a, ha⟩ | ⟨e', he⟩
  · rw [hvalue a ha] at h
    cases h
  · obtain rfl : e' = e := by simpa [hfault e' he] using h
    exact he

end Specified

end Breadboard.Except
