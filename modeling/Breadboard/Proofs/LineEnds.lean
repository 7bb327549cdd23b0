import Breadboard.Proofs.TextLines

/-! Changing the lines of a text in place. A text is cut into its lines together with their ends, so
that each line can be changed and its end stays. The lines are then the changed ones, unless a line
gets a line feed, loses its last character, or gets a carriage return at its end that a line feed
behind it would take. -/

set_option autoImplicit false

namespace Breadboard.Text

/-- The lines of a text, each with its end. Only the last line can be without one. -/
def splitPieces : List Char → List (List Char × List Char)
  | [] => []
  | '\n' :: cs => ([], ['\n']) :: splitPieces cs
  | '\r' :: '\n' :: cs => ([], ['\r', '\n']) :: splitPieces cs
  | c :: cs =>
    match splitPieces cs with
    | [] => [([c], [])]
    | (l, e) :: ps => (c :: l, e) :: ps

def joinPieces (ps : List (List Char × List Char)) : List Char := ps.flatMap fun p => p.1 ++ p.2

def mapLines (f : String → String) (s : String) : String :=
  String.ofList (joinPieces ((splitPieces s.toList).map fun p =>
    ((f (String.ofList p.1)).toList, p.2)))

inductive Pieces : List (List Char × List Char) → Prop
  | nil : Pieces []
  | last {l : List Char} (hfeed : '\n' ∉ l) (hne : l ≠ []) : Pieces [(l, [])]
  | feed {l : List Char} {ps : List (List Char × List Char)} (hl : Unbroken l) (hps : Pieces ps) :
      Pieces ((l, ['\n']) :: ps)
  | crlf {l : List Char} {ps : List (List Char × List Char)} (hfeed : '\n' ∉ l)
      (hps : Pieces ps) : Pieces ((l, ['\r', '\n']) :: ps)

theorem joinPieces_cons (l e : List Char) (ps : List (List Char × List Char)) :
    joinPieces ((l, e) :: ps) = l ++ e ++ joinPieces ps := List.flatMap_cons

theorem joinPieces_splitPieces (cs : List Char) : joinPieces (splitPieces cs) = cs := by
  fun_induction splitPieces cs with
  | case1 => rfl
  | case2 cs ih | case3 cs ih => rw [joinPieces_cons, ih]; rfl
  | case4 c cs _ _ hnil ih =>
    rw [hnil] at ih
    rw [← ih]
    rfl
  | case5 c cs _ _ l e ps hps ih =>
    rw [hps] at ih
    rw [← ih]
    rfl

theorem pieces_splitPieces (cs : List Char) : Pieces (splitPieces cs) := by
  fun_induction splitPieces cs with
  | case1 => exact .nil
  | case2 cs ih => exact .feed ⟨by simp, by simp⟩ ih
  | case3 cs ih => exact .crlf (by simp) ih
  | case4 c cs hfeed _ _ _ => exact .last (by simpa using Ne.symm hfeed) (by simp)
  | case5 c cs hfeed hreturn l e ps hps ih =>
    have hcs := joinPieces_splitPieces cs
    rw [hps] at ih hcs
    have hmem {l : List Char} (h : '\n' ∉ l) : '\n' ∉ c :: l := by simpa using ⟨Ne.symm hfeed, h⟩
    cases ih with
    | last h _ => exact .last (hmem h) (by simp)
    | feed h hps =>
      refine .feed ⟨hmem h.feed, ?_⟩ hps
      cases l with
      | nil =>
        -- A carriage return here would be a part of the line end.
        intro hlast
        obtain rfl : c = '\r' := by simpa using hlast
        exact hreturn _ rfl hcs.symm
      | cons d l => rw [List.getLast?_cons_cons]; exact h.last
    | crlf h hps => exact .crlf (hmem h) hps

theorem Pieces.splitLines_joinPieces {ps : List (List Char × List Char)} (h : Pieces ps) :
    splitLines (joinPieces ps) = ps.map Prod.fst := by
  induction h with
  | nil => rfl
  | last hfeed hne => simpa [joinPieces] using splitLines_singleton hfeed hne
  | feed hl _ ih =>
    rw [joinPieces_cons, List.append_assoc, List.map_cons, ← ih]
    exact splitLines_append hl _
  | crlf hfeed _ ih =>
    rw [joinPieces_cons, List.append_assoc, List.map_cons, ← ih]
    exact splitLines_return hfeed _

/-- What a change of a line leaves alone for the line to end where it did. -/
structure KeepsEnd (l l' : List Char) : Prop where
  feed : '\n' ∈ l' → '\n' ∈ l
  last : l'.getLast? = some '\r' → l.getLast? = some '\r'
  ne_nil : l' = [] → l = []

theorem Pieces.map {f : List Char → List Char} (hf : ∀ l, KeepsEnd l (f l))
    {ps : List (List Char × List Char)} (h : Pieces ps) :
    Pieces (ps.map fun p => (f p.1, p.2)) := by
  induction h with
  | nil => exact .nil
  | last hfeed hne => exact .last (mt (hf _).feed hfeed) (mt (hf _).ne_nil hne)
  | feed hl _ ih => exact .feed ⟨mt (hf _).feed hl.feed, mt (hf _).last hl.last⟩ ih
  | crlf hfeed _ ih => exact .crlf (mt (hf _).feed hfeed) ih

theorem lines_mapLines {f : String → String} (hf : ∀ t, KeepsEnd t.toList (f t).toList) (s : String) :
    lines (mapLines f s) = (lines s).map f := by
  have hf' (l : List Char) : KeepsEnd l (f (String.ofList l)).toList := by
    simpa using hf (String.ofList l)
  have hpieces := pieces_splitPieces s.toList
  have hlines := hpieces.splitLines_joinPieces
  rw [joinPieces_splitPieces] at hlines
  unfold lines mapLines
  rw [String.toList_ofList, (hpieces.map hf').splitLines_joinPieces, hlines]
  simp

end Breadboard.Text
