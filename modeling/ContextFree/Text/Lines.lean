/-!
# Lines

How a sequence of characters or of bytes falls into lines. Every line break
ends a line, and a return right before the break belongs to it. What follows
the last break is a line of its own unless it is empty; a return at its end is
part of the line.
-/

namespace ContextFree.Text

variable {α : Type} [DecidableEq α]

def dropReturn (ret : α) (line : List α) : List α :=
  if line.getLast? = some ret then line.dropLast else line

def linesOf (newline ret : α) (xs : List α) : List (List α) :=
  let pieces := xs.splitOn newline
  let last := pieces.getLast?.getD []
  pieces.dropLast.map (dropReturn ret) ++ if last = [] then [] else [last]

section
variable {newline ret : α} {line : List α} {lines : List (List α)}

theorem linesOf_of_not_mem (h : newline ∉ line) :
    linesOf newline ret line = if line = [] then [] else [line] := by
  simp [linesOf, List.splitOn_eq_singleton h]

theorem linesOf_append_break (h : newline ∉ line) (rest : List α) :
    linesOf newline ret (line ++ newline :: rest) =
      dropReturn ret line :: linesOf newline ret rest := by
  have hne : rest.splitOn newline ≠ [] := List.splitOn_ne_nil newline rest
  simp only [linesOf, List.splitOn_append_cons_self_of_not_mem h,
    List.dropLast_cons_of_ne_nil hne, List.getLast?_cons_of_ne_nil hne, List.map_cons,
    List.cons_append]

theorem linesOf_flatMap_break (hn : ∀ line ∈ lines, newline ∉ line)
    (hr : ∀ line ∈ lines, ret ∉ line) :
    linesOf newline ret (lines.flatMap (· ++ [newline])) = lines := by
  induction lines with
  | nil => exact linesOf_of_not_mem List.not_mem_nil
  | cons line lines ih =>
    obtain ⟨hline, hlines⟩ := List.forall_mem_cons.mp hn
    obtain ⟨hkept, hrest⟩ := List.forall_mem_cons.mp hr
    have hdrop : dropReturn ret line = line :=
      if_neg fun hlast => hkept (List.mem_of_getLast? hlast)
    rw [List.flatMap_cons, List.append_assoc, List.singleton_append, linesOf_append_break hline,
      hdrop, ih hlines hrest]

end

example : linesOf '\n' '\r' "a\r\n\nb\r".toList = ["a".toList, [], "b\r".toList] := by
  decide +kernel

end ContextFree.Text
