import TypeScriptEngine.Text.Bytes
import TypeScriptEngine.Text.Split

/-!
# Edits

The emitter never prints a program anew: it replaces byte ranges of the source text.  A replaced
range keeps its line breaks, which follow the new text, so that whatever is not replaced stays on
its line.
-/

namespace TypeScriptEngine

/-- A range of bytes and the text that takes its place. -/
structure Edit where
  start : Nat
  stop : Nat
  text : List Char
deriving DecidableEq, Repr

namespace Edit

/-- Edits are carried out from left to right, and insertions before replacements. -/
def le (e f : Edit) : Bool := e.start < f.start || (e.start == f.start && e.stop ≤ f.stop)

/-- Carries out edits in order on what is left of a text behind byte `cursor`.  An edit that reaches
back before the cursor is passed over. -/
def splice (cursor : Nat) (rest : List Char) : List Edit → List Char
  | [] => rest
  | e :: es =>
    if e.start < cursor then splice cursor rest es
    else
      let (kept, after) := Text.splitBytes (e.start - cursor) rest
      let (cut, rest) := Text.splitBytes (e.stop - e.start) after
      kept ++ e.text ++ List.replicate (Text.lineBreaks cut) '\n' ++ splice e.stop rest es

/-- Carries out edits on a text. -/
def applyAll (edits : List Edit) (text : List Char) : List Char :=
  splice 0 text (edits.mergeSort le)

/-- **Edits whose texts have no line breaks keep the number of lines.** -/
theorem lineBreaks_splice (cursor : Nat) (rest : List Char) (edits : List Edit)
    (h : ∀ e ∈ edits, '\n' ∉ e.text) :
    Text.lineBreaks (splice cursor rest edits) = Text.lineBreaks rest := by
  induction edits generalizing cursor rest with
  | nil => rfl
  | cons e es ih =>
    have hes : ∀ f ∈ es, '\n' ∉ f.text := fun f hf => h f (List.mem_cons_of_mem _ hf)
    have he : List.count '\n' e.text = 0 := List.count_eq_zero.2 (h e List.mem_cons_self)
    simp only [splice]
    split
    · exact ih cursor rest hes
    · have h₁ := congrArg Text.lineBreaks (Text.splitBytes_append (e.start - cursor) rest)
      have h₂ := congrArg Text.lineBreaks (Text.splitBytes_append (e.stop - e.start)
        (Text.splitBytes (e.start - cursor) rest).2)
      have h₃ := ih e.stop (Text.splitBytes (e.stop - e.start)
        (Text.splitBytes (e.start - cursor) rest).2).2 hes
      simp only [Text.lineBreaks, List.count_append, List.count_replicate_self] at *
      omega

end Edit

end TypeScriptEngine
