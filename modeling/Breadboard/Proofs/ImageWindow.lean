import Breadboard.Image
import Breadboard.Proofs.DumpReading
import Breadboard.Proofs.Except

/-! Images that are cut out of files. A file holds the bytes of an image or a decimal dump of them, and
which of the two it is makes no difference: what is loaded lies between the bytes that are skipped and
the bytes that are left over, or else the first bound that is passed is reported. The bounds may be any
numbers, however far behind the end of the file. -/

set_option autoImplicit false

namespace Breadboard

theorem Contents.text_encode (s : String) : Contents.text (some (Utf8.encode s)) = .ok s :=
  Contents.text_eq_ok_iff.mpr rfl

namespace Image

/-- An image with the bytes around it. Without a length it goes on to the end. -/
inductive Window : List UInt8 → Nat → Option Nat → List UInt8 → Prop
  | rest {front image : List UInt8} : Window (front ++ image) front.length none image
  | limited {front image back : List UInt8} :
      Window (front ++ (image ++ back)) front.length (some image.length) image

/-- What bytes are loaded as. The conditions say which of several faults it is. -/
inductive Loads (bytes : List UInt8) (skip : Nat) (length : Option Nat) :
    Except ImageError (List UInt8) → Prop
  | skipTooLarge (hskip : bytes.length < skip) : Loads bytes skip length (.error .skipTooLarge)
  | lengthTooLarge {n : Nat} (hlength : length = some n) (hskip : skip ≤ bytes.length)
      (hrest : bytes.length < skip + n) : Loads bytes skip length (.error .lengthTooLarge)
  | imageTooLarge {image : List UInt8} (hwindow : Window bytes skip length image)
      (hlarge : 256 < image.length) : Loads bytes skip length (.error .imageTooLarge)
  | image {image : List UInt8} (hwindow : Window bytes skip length image)
      (hfits : image.length ≤ 256) : Loads bytes skip length (.ok image)

section Window
variable {bytes image : List UInt8} {skip : Nat} {length : Option Nat}

theorem window_of_window (h : Window bytes skip length image) :
    window skip length bytes = .ok image := by
  cases h with
  | rest => simp [window]
  | @limited front image back =>
    have hskip : ¬ front.length + (image.length + back.length) < front.length := by omega
    have hlength : ¬ image.length + back.length < image.length := by omega
    simp [window, hskip, hlength]

theorem exists_window (hskip : skip ≤ bytes.length)
    (hlength : ∀ n, length = some n → skip + n ≤ bytes.length) :
    ∃ image, Window bytes skip length image := by
  obtain ⟨front, rest, rfl, rfl⟩ : ∃ front rest, bytes = front ++ rest ∧ front.length = skip :=
    ⟨bytes.take skip, bytes.drop skip, (List.take_append_drop skip bytes).symm,
      List.length_take_of_le hskip⟩
  cases length with
  | none => exact ⟨rest, .rest⟩
  | some n =>
    have hn : n ≤ rest.length := by simpa using hlength n rfl
    obtain ⟨image, back, rfl, rfl⟩ : ∃ image back, rest = image ++ back ∧ image.length = n :=
      ⟨rest.take n, rest.drop n, (List.take_append_drop n rest).symm, List.length_take_of_le hn⟩
    exact ⟨image, .limited⟩

theorem exists_loads (bytes : List UInt8) (skip : Nat) (length : Option Nat) :
    ∃ result, Loads bytes skip length result := by
  by_cases hskip : bytes.length < skip
  · exact ⟨_, .skipTooLarge hskip⟩
  by_cases hlength : ∃ n, length = some n ∧ bytes.length < skip + n
  · obtain ⟨n, hn, hrest⟩ := hlength
    exact ⟨_, .lengthTooLarge hn (Nat.le_of_not_lt hskip) hrest⟩
  obtain ⟨image, hwindow⟩ : ∃ image, Window bytes skip length image := by
    apply exists_window (Nat.le_of_not_lt hskip)
    intro n hn
    exact Nat.le_of_not_lt fun hrest => hlength ⟨n, hn, hrest⟩
  rcases Nat.lt_or_ge 256 image.length with hlarge | hfits
  · exact ⟨_, .imageTooLarge hwindow hlarge⟩
  · exact ⟨_, .image hwindow hfits⟩

theorem load_of_loads {result : Except ImageError (List UInt8)} (h : Loads bytes skip length result)
    (name : String) : load .raw name (some bytes) skip length = result.map (⟨name, ·⟩) := by
  have hload : load .raw name (some bytes) skip length =
      (window skip length bytes).bind (ofBytes name) := rfl
  rw [hload]
  cases h with
  | skipTooLarge hskip =>
    unfold window
    rw [if_pos hskip]
    rfl
  | @lengthTooLarge n hlength hskip hrest =>
    have hrest : bytes.length - skip < n := by omega
    unfold window
    rw [if_neg (Nat.not_lt.mpr hskip), hlength]
    simp only [hrest, if_true]
    rfl
  | imageTooLarge hwindow hlarge =>
    rw [window_of_window hwindow]
    exact if_neg (Nat.not_le.mpr hlarge)
  | image hwindow hfits =>
    rw [window_of_window hwindow]
    exact if_pos hfits

theorem Loads.unique {result result' : Except ImageError (List UInt8)}
    (h : Loads bytes skip length result) (h' : Loads bytes skip length result') :
    result = result' := by
  have hbytes (r : Except ImageError (List UInt8)) :
      (r.map (Image.mk "")).map Image.bytes = r := by cases r <;> rfl
  calc result = (result.map (Image.mk "")).map Image.bytes := (hbytes result).symm
    _ = (result'.map (Image.mk "")).map Image.bytes := by
      rw [← load_of_loads h "", load_of_loads h' ""]
    _ = result' := hbytes result'

end Window

theorem load_raw {bytes : List UInt8} (h : bytes.length ≤ addressSpace) (name : String) :
    load .raw name (some bytes) 0 none = .ok ⟨name, bytes⟩ := by
  have hwindow : Window bytes 0 none bytes := @Window.rest [] bytes
  exact load_of_loads (.image hwindow h) name

theorem load_decimal (name : String) (bytes : List UInt8) (skip : Nat) (length : Option Nat) :
    load .dump name (some (Utf8.encode (Dump.decimal bytes))) skip length =
      load .raw name (some bytes) skip length := by
  have hread : readFile .dump name (some (Utf8.encode (Dump.decimal bytes))) =
      readFile .raw name (some bytes) := by
    unfold readFile
    rw [Contents.text_encode]
    simp [Except.mapError, Except.bind, Dump.read_decimal, Contents.bytes]
  unfold load
  rw [hread]

/-- Bytes and their decimal dump are loaded as the same: the image between the given bounds, or the
fault of the bounds. -/
theorem load_decimal_loads (bytes : List UInt8) (skip : Nat) (length : Option Nat) :
    ∃ result, (∀ r, Loads bytes skip length r ↔ r = result) ∧ ∀ name,
      load .raw name (some bytes) skip length = result.map (⟨name, ·⟩) ∧
      load .dump name (some (Utf8.encode (Dump.decimal bytes))) skip length =
        result.map (⟨name, ·⟩) := by
  obtain ⟨result, hresult⟩ := exists_loads bytes skip length
  refine ⟨result, fun r => ⟨fun h => h.unique hresult, ?_⟩, fun name => ?_⟩
  · rintro rfl
    exact hresult
  · have hload := load_of_loads hresult name
    rw [load_decimal]
    exact ⟨hload, hload⟩

end Image

end Breadboard
