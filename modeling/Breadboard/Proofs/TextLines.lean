import Mathlib.Data.List.Basic
import Breadboard.Text.Lines

/-! Texts that are put together from lines. Lines with line feeds between them or behind them are cut
apart again, but a carriage return at the end of a line is taken for a part of the line end. -/

set_option autoImplicit false

namespace Breadboard.Text

/-- A text that stays one line where it ends in front of a line feed. -/
structure Unbroken (cs : List Char) : Prop where
  feed : '\n' ∉ cs
  last : cs.getLast? ≠ some '\r'

theorem Unbroken.of_cons {c : Char} {cs : List Char} (h : Unbroken (c :: cs)) : Unbroken cs := by
  refine ⟨fun hc => h.feed (List.mem_cons_of_mem c hc), fun hr => h.last ?_⟩
  rw [List.getLast?_cons, hr]
  rfl

theorem splitLines_cons {c : Char} {cs l : List Char} {ls : List (List Char)} (hc : c ≠ '\n')
    (hr : c = '\r' → cs.head? ≠ some '\n') (h : splitLines cs = l :: ls) :
    splitLines (c :: cs) = (c :: l) :: ls := by
  rw [splitLines, h]
  · exact hc
  · rintro cs rfl rfl
    exact hr rfl rfl

theorem splitLines_append {cs : List Char} (h : Unbroken cs) (rest : List Char) :
    splitLines (cs ++ '\n' :: rest) = cs :: splitLines rest := by
  induction cs with
  | nil => rw [List.nil_append, splitLines]
  | cons c cs ih =>
    refine splitLines_cons (fun hc => h.feed (by simp [hc])) (fun hr => ?_) (ih h.of_cons)
    cases cs with
    | nil => exact absurd (by simp [hr]) h.last
    | cons d cs =>
      intro hd
      obtain rfl : d = '\n' := by simpa using hd
      exact h.feed (by simp)

theorem splitLines_singleton {cs : List Char} (h : '\n' ∉ cs) (hne : cs ≠ []) :
    splitLines cs = [cs] := by
  induction cs with
  | nil => exact absurd rfl hne
  | cons c cs ih =>
    rw [List.mem_cons, not_or] at h
    cases cs with
    | nil =>
      rw [splitLines, splitLines]
      · exact Ne.symm h.1
      · rintro _ _ ⟨⟩
    | cons d cs =>
      have hd : d ≠ '\n' := fun hd => h.2 (by simp [hd])
      exact splitLines_cons (Ne.symm h.1) (fun _ => by simpa using hd) (ih h.2 (by simp))

theorem lines_intercalate {ts : List String} (h : ∀ t ∈ ts, t ≠ "" ∧ Unbroken t.toList) :
    lines (String.intercalate "\n" ts) = ts := by
  unfold lines
  induction ts with
  | nil => rfl
  | cons t ts ih =>
    obtain ⟨⟨hne, ht⟩, hts⟩ := List.forall_mem_cons.mp h
    cases ts with
    | nil =>
      rw [String.intercalate_singleton, splitLines_singleton ht.feed (by simpa using hne)]
      simp
    | cons u ts =>
      have ih := ih hts
      rw [String.intercalate_cons_cons, String.toList_append, String.toList_append,
        List.append_assoc]
      simp only [String.reduceToList, List.cons_append, List.nil_append]
      rw [splitLines_append ht, List.map_cons, ih, String.ofList_toList]

def dropReturn (cs : List Char) : List Char := if cs.getLast? = some '\r' then cs.dropLast else cs

theorem dropReturn_of_last {cs : List Char} (h : cs.getLast? ≠ some '\r') : dropReturn cs = cs :=
  if_neg h

@[simp] theorem dropReturn_concat (cs : List Char) : dropReturn (cs ++ ['\r']) = cs := by
  simp [dropReturn]

theorem dropReturn_append {cs : List Char} (h : cs.getLast? ≠ some '\r') (ds : List Char) :
    dropReturn (cs ++ ds) = cs ++ dropReturn ds := by
  rcases List.eq_nil_or_concat' ds with rfl | ⟨ds, d, rfl⟩
  · rw [List.append_nil, dropReturn_of_last h]
    simp [dropReturn]
  by_cases hd : d = '\r'
  · subst hd
    rw [← List.append_assoc, dropReturn_concat, dropReturn_concat]
  · rw [dropReturn_of_last (by simpa using hd), dropReturn_of_last (by simpa using hd)]

theorem splitLines_return {cs : List Char} (h : '\n' ∉ cs) (rest : List Char) :
    splitLines (cs ++ '\r' :: '\n' :: rest) = cs :: splitLines rest := by
  induction cs with
  | nil => rw [List.nil_append, splitLines]
  | cons c cs ih =>
    rw [List.mem_cons, not_or] at h
    refine splitLines_cons (Ne.symm h.1) (fun _ hn => ?_) (ih h.2)
    cases cs with
    | nil => cases hn
    | cons d cs =>
      obtain rfl : d = '\n' := by simpa using hn
      exact h.2 List.mem_cons_self

theorem splitLines_feed {cs : List Char} (h : '\n' ∉ cs) (rest : List Char) :
    splitLines (cs ++ '\n' :: rest) = dropReturn cs :: splitLines rest := by
  by_cases hlast : cs.getLast? = some '\r'
  · obtain ⟨cs, rfl⟩ := List.getLast?_eq_some_iff.mp hlast
    have hfeed : '\n' ∉ cs := fun hc => h (List.mem_append_left _ hc)
    rw [dropReturn_concat, List.append_assoc]
    exact splitLines_return hfeed rest
  · rw [dropReturn_of_last hlast]
    exact splitLines_append ⟨h, hlast⟩ rest

theorem lines_join {ts : List String} (h : ∀ t ∈ ts, '\n' ∉ t.toList) :
    lines (String.join (ts.map (· ++ "\n"))) =
      ts.map fun t => String.ofList (dropReturn t.toList) := by
  unfold lines
  induction ts with
  | nil => rfl
  | cons t ts ih =>
    rw [List.forall_mem_cons] at h
    have ih := ih h.2
    rw [List.map_cons, String.join_cons, String.toList_append, String.toList_append,
      List.append_assoc]
    simp only [String.reduceToList, List.cons_append, List.nil_append]
    rw [splitLines_feed h.1, List.map_cons, ih, List.map_cons]

/-- Two texts that are cut at the first place of a character have the same parts. -/
theorem append_cons_inj {c : Char} {front front' rest rest' : List Char} (h : c ∉ front)
    (h' : c ∉ front') (heq : front ++ c :: rest = front' ++ c :: rest') :
    front = front' ∧ rest = rest' := by
  induction front generalizing front' with
  | nil =>
    cases front' with
    | nil => exact ⟨rfl, (List.cons.inj heq).2⟩
    | cons d front' =>
      obtain ⟨rfl, _⟩ := List.cons.inj heq
      exact absurd List.mem_cons_self h'
  | cons d front ih =>
    cases front' with
    | nil =>
      obtain ⟨rfl, _⟩ := List.cons.inj heq
      exact absurd List.mem_cons_self h
    | cons d' front' =>
      rw [List.mem_cons, not_or] at h h'
      obtain ⟨rfl, htail⟩ := List.cons.inj heq
      obtain ⟨rfl, hrest⟩ := ih h.2 h'.2 htail
      exact ⟨rfl, hrest⟩

theorem toList_join_feeds_cons (t : String) (ts : List String) :
    (String.join ((t :: ts).map (· ++ "\n"))).toList =
      t.toList ++ '\n' :: (String.join (ts.map (· ++ "\n"))).toList := by simp

/-- Lines with a line feed behind each, also behind a carriage return, are found again. -/
theorem join_feeds_inj {ts us : List String} (ht : ∀ t ∈ ts, '\n' ∉ t.toList)
    (hu : ∀ u ∈ us, '\n' ∉ u.toList)
    (h : String.join (ts.map (· ++ "\n")) = String.join (us.map (· ++ "\n"))) : ts = us := by
  replace h := congrArg String.toList h
  induction ts generalizing us with
  | nil =>
    cases us with
    | nil => rfl
    | cons u us =>
      rw [toList_join_feeds_cons] at h
      exact absurd h.symm (List.append_ne_nil_of_right_ne_nil _ (List.cons_ne_nil _ _))
  | cons t ts ih =>
    rw [toList_join_feeds_cons] at h
    cases us with
    | nil => exact absurd h (List.append_ne_nil_of_right_ne_nil _ (List.cons_ne_nil _ _))
    | cons u us =>
      rw [toList_join_feeds_cons] at h
      rw [List.forall_mem_cons] at ht hu
      obtain ⟨htext, hrest⟩ := append_cons_inj ht.1 hu.1 h
      rw [String.toList_inj.mp htext, ih ht.2 hu.2 hrest]

theorem feed_notMem_of_mem_splitLines {cs l : List Char} (h : l ∈ splitLines cs) : '\n' ∉ l := by
  fun_induction splitLines cs generalizing l with
  | case1 => cases h
  | case2 cs ih | case3 cs ih =>
    rcases List.mem_cons.mp h with rfl | h
    · exact List.not_mem_nil
    · exact ih h
  | case4 c cs hfeed _ hnil =>
    obtain rfl := List.mem_singleton.mp h
    simpa using Ne.symm hfeed
  | case5 c cs hfeed _ line ls hls ih =>
    rw [hls] at ih
    rcases List.mem_cons.mp h with rfl | h
    · simpa using ⟨Ne.symm hfeed, ih List.mem_cons_self⟩
    · exact ih (List.mem_cons_of_mem line h)

theorem feed_notMem_of_mem_lines {s t : String} (h : t ∈ lines s) : '\n' ∉ t.toList := by
  obtain ⟨l, hl, rfl⟩ := List.mem_map.mp h
  rw [String.toList_ofList]
  exact feed_notMem_of_mem_splitLines hl

end Breadboard.Text
