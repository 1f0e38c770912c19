import ContextFree.Grammar.Lemmas

/-!
# Derivations

What a grammar means, said without any algorithm: a list of symbols yields a
word if the terminals stand for themselves and each nonterminal for a word that
one of its productions yields. A nonterminal derives a word if it yields it on
its own.
-/

namespace ContextFree

inductive Yields (g : Grammar) : Production → List String → Prop
  | nil : Yields g [] []
  | terminal {p : Production} {w : List String} (t : String) (rest : Yields g p w) :
    Yields g (.terminal t :: p) (t :: w)
  | nonterminal {p q : Production} {u v : List String} {name : String}
    (rule : q ∈ g.productions name) (first : Yields g q u) (rest : Yields g p v) :
    Yields g (.nonterminal name :: p) (u ++ v)

def Grammar.Derives (g : Grammar) (name : String) (w : List String) : Prop :=
  Yields g [.nonterminal name] w

namespace Yields

variable {g h : Grammar} {p q : Production} {w : List String} {name t : String}

@[simp] theorem nil_iff : Yields g [] w ↔ w = [] := by
  constructor
  · intro hy
    cases hy
    rfl
  · rintro rfl
    exact .nil

theorem terminal_cons_iff :
    Yields g (.terminal t :: p) w ↔ ∃ v, w = t :: v ∧ Yields g p v := by
  constructor
  · intro hy
    cases hy with
    | terminal _ rest => exact ⟨_, rfl, rest⟩
  · rintro ⟨v, rfl, hv⟩
    exact .terminal t hv

theorem nonterminal_cons_iff :
    Yields g (.nonterminal name :: p) w ↔
      ∃ u v, w = u ++ v ∧ (∃ q ∈ g.productions name, Yields g q u) ∧ Yields g p v := by
  constructor
  · intro hy
    cases hy with
    | nonterminal rule first rest => exact ⟨_, _, rfl, ⟨_, rule, first⟩, rest⟩
  · rintro ⟨u, v, rfl, ⟨q, hq, hu⟩, hv⟩
    exact .nonterminal hq hu hv

theorem append_iff :
    Yields g (p ++ q) w ↔ ∃ u v, w = u ++ v ∧ Yields g p u ∧ Yields g q v := by
  induction p generalizing w with
  | nil =>
    constructor
    · exact fun hy => ⟨[], w, rfl, .nil, hy⟩
    · rintro ⟨u, v, rfl, hu, hv⟩
      rw [nil_iff] at hu
      simpa [hu] using hv
  | cons s p ih =>
    cases s with
    | terminal t =>
      simp only [List.cons_append, terminal_cons_iff, ih]
      constructor
      · rintro ⟨_, rfl, u, v, rfl, hu, hv⟩
        exact ⟨t :: u, v, rfl, ⟨u, rfl, hu⟩, hv⟩
      · rintro ⟨_, v, rfl, ⟨u, rfl, hu⟩, hv⟩
        exact ⟨u ++ v, rfl, u, v, rfl, hu, hv⟩
    | nonterminal name =>
      simp only [List.cons_append, nonterminal_cons_iff, ih]
      constructor
      · rintro ⟨u₁, _, rfl, hn, u₂, v, rfl, hu, hv⟩
        exact ⟨u₁ ++ u₂, v, (List.append_assoc ..).symm, ⟨u₁, u₂, rfl, hn, hu⟩, hv⟩
      · rintro ⟨_, v, rfl, ⟨u₁, u₂, rfl, hn, hu⟩, hv⟩
        exact ⟨u₁, u₂ ++ v, List.append_assoc .., hn, u₂, v, rfl, hu, hv⟩

theorem mono (hgh : ∀ name p, p ∈ g.productions name → p ∈ h.productions name)
    (hy : Yields g p w) : Yields h p w := by
  induction hy with
  | nil => exact .nil
  | terminal t _ ih => exact .terminal t ih
  | nonterminal rule _ _ ih₁ ih₂ => exact .nonterminal (hgh _ _ rule) ih₁ ih₂

end Yields

theorem Grammar.derives_iff {g : Grammar} {name : String} {w : List String} :
    g.Derives name w ↔ ∃ p ∈ g.productions name, Yields g p w := by
  unfold Derives
  rw [Yields.nonterminal_cons_iff]
  constructor
  · rintro ⟨u, v, rfl, hn, hv⟩
    rw [Yields.nil_iff] at hv
    simpa [hv] using hn
  · exact fun hn => ⟨w, [], (List.append_nil w).symm, hn, .nil⟩

end ContextFree
