import Mathlib.Data.List.Basic
import Breadboard.Tool.Assembler

/-! The standard error of the assembler. The texts of a run and what its log writes are mixed there, and
with the log switched off only the texts are left. Nothing that is logged before a run has its result is
an error, so a run that ends well leaves nothing there, unless the log is told to write more. -/

set_option autoImplicit false

namespace Breadboard.Tool.Assembler

def Note.said : Note → String
  | .text s => s
  | .event _ => ""

namespace Messages

/-- The log is switched off. -/
def LogOff (messages : Messages) : Prop := ∀ place e, messages.log place e = ""

/-- Nothing below an error is logged, as it is unless the log is told otherwise. -/
def LogsErrorsOnly (messages : Messages) : Prop :=
  ∀ place (e : Event), e.level ≠ .error → messages.log place e = ""

theorem LogOff.logsErrorsOnly {messages : Messages} (h : messages.LogOff) :
    messages.LogsErrorsOnly :=
  fun place e _ => h place e

theorem logOff_quiet : quiet.LogOff := fun _ _ => rfl

theorem stream_eq_join_said {messages : Messages} {notes : List Note}
    (h : ∀ place e, .event e ∈ notes → messages.log place e = "") :
    messages.stream notes = String.join (notes.map Note.said) := by
  unfold stream
  apply congrArg String.join
  apply List.ext_getElem (by simp)
  intro place hplace _
  rw [List.getElem_mapIdx, List.getElem_map]
  rw [List.length_mapIdx] at hplace
  cases hnote : notes[place] with
  | text s => rfl
  | event e => exact h place e (hnote ▸ List.getElem_mem hplace)

theorem join_said_events (es : List Event) :
    String.join ((es.map Note.event).map Note.said) = "" := by
  induction es with
  | nil => rfl
  | cons e es ih => rw [List.map_cons, List.map_cons, String.join_cons, ih]; rfl

end Messages

variable {o : Options} {found : Surroundings} {messages : Messages}

theorem level_of_mem_events {e : Event} (h : e ∈ events o found) : e.level ≠ .error := by
  rcases List.mem_cons.mp h with rfl | h
  · simp [Event.level]
  · split at h
    · obtain ⟨a, _, rfl⟩ := List.mem_map.mp h
      cases a <;> simp [Event.level, AssemblyEvent.level]
    · cases h

/-- What is logged before the result is not on the standard error, if the log keeps to errors. -/
theorem stream_events (h : messages.LogsErrorsOnly) :
    messages.stream ((events o found).map .event) = "" := by
  rw [Messages.stream_eq_join_said, Messages.join_said_events]
  intro place e he
  obtain ⟨e', he', he⟩ := List.mem_map.mp he
  cases he
  exact h place e (level_of_mem_events he')

end Breadboard.Tool.Assembler
