import ContextFree.Derivation
import Mathlib.Logic.Function.Basic

/-!
# Comparing the words of two grammars

A rule of one grammar is read in another by putting lists of symbols in the
place of nonterminals. If the other grammar lets every rule read so pass,
every word of the first is a word of the second (`Yields.subst`): all
comparisons of grammars rest on this one induction.

`KeepsWords` is what each rewriting of a grammar owes to its input: no head is
lost, and each derives the words that it derived, the empty word apart.
-/

namespace ContextFree

variable {g h k : Grammar} {p q : Production} {w : List String} {name head t : String}
variable {σ τ : String → Production}

-- ---------------------------------------------------------------------------
-- Substitution
-- ---------------------------------------------------------------------------

namespace Production

/-- Puts a list of symbols in the place of every nonterminal. -/
def subst (σ : String → Production) (p : Production) : Production :=
  p.flatMap fun
    | .nonterminal name => σ name
    | .terminal t => [.terminal t]

@[simp] theorem subst_nil : subst σ [] = [] := rfl

@[simp] theorem subst_nonterminal_cons :
    subst σ (.nonterminal name :: p) = σ name ++ subst σ p := rfl

@[simp] theorem subst_terminal_cons :
    subst σ (.terminal t :: p) = .terminal t :: subst σ p := rfl

theorem subst_eq_self (h : ∀ name, .nonterminal name ∈ p → σ name = [.nonterminal name]) :
    subst σ p = p := by
  induction p with
  | nil => rfl
  | cons s p ih =>
    have hp := ih fun name hn => h name (List.mem_cons_of_mem _ hn)
    cases s with
    | terminal t => simp [hp]
    | nonterminal name => simp [hp, h name]

end Production

/-- Reads one name as a list of symbols and all others as themselves. -/
def reading (name : String) (p : Production) : String → Production :=
  Function.update (fun other => [.nonterminal other]) name p

@[simp] theorem reading_self : reading name p name = p := Function.update_self ..

theorem reading_of_ne {other : String} (hne : other ≠ name) :
    reading name p other = [.nonterminal other] := Function.update_of_ne hne ..

theorem subst_reading_of_not_mem (hn : .nonterminal name ∉ q) : q.subst (reading name p) = q := by
  refine Production.subst_eq_self fun other ho => reading_of_ne ?_
  rintro rfl
  exact hn ho

-- ---------------------------------------------------------------------------
-- Simulation
-- ---------------------------------------------------------------------------

namespace Yields

theorem subst (hσ : ∀ name, ∀ q ∈ g.productions name, ∀ w, Yields h (q.subst σ) w →
    Yields h (σ name) w) (hy : Yields g p w) : Yields h (p.subst σ) w := by
  induction hy with
  | nil => exact .nil
  | terminal t _ ih => exact .terminal t ih
  | nonterminal rule _ _ ihq ihp =>
    rw [Production.subst_nonterminal_cons, append_iff]
    exact ⟨_, _, rfl, hσ _ _ rule _ ihq, ihp⟩

/-- A rule that a grammar lacks does no harm if the head derives what the production yields. -/
theorem of_admissible (hr : ∀ name, ∀ q ∈ g.productions name, ∀ w, Yields h q w →
    h.Derives name w) (hy : Yields g p w) : Yields h p w := by
  have hs : ∀ r : Production, r.subst (fun name => [.nonterminal name]) = r :=
    fun r => Production.subst_eq_self fun _ _ => rfl
  have hp : Yields h (p.subst fun name => [.nonterminal name]) w :=
    hy.subst fun name q hq v hv => hr name q hq v (hs q ▸ hv)
  rwa [hs] at hp

theorem congr (hp : ∀ name q, q ∈ g.productions name ↔ q ∈ h.productions name) :
    Yields g p w ↔ Yields h p w :=
  ⟨mono fun name q => (hp name q).mp, mono fun name q => (hp name q).mpr⟩

theorem cons_iff {s : Symbol} :
    Yields g (s :: p) w ↔ ∃ u v, w = u ++ v ∧ Yields g [s] u ∧ Yields g p v :=
  append_iff (p := [s])

theorem terminal_iff : Yields g [.terminal t] w ↔ w = [t] := by
  simp [terminal_cons_iff]

end Yields

-- ---------------------------------------------------------------------------
-- Keeping words
-- ---------------------------------------------------------------------------

namespace Grammar

/-- Every head of `g` is a head of `h` and derives the same words in both, the empty word
apart. -/
structure KeepsWords (g h : Grammar) : Prop where
  heads : ∀ head ∈ g.heads, head ∈ h.heads
  derives : ∀ head ∈ g.heads, ∀ w, w ≠ [] → (h.Derives head w ↔ g.Derives head w)

namespace KeepsWords

theorem refl (g : Grammar) : g.KeepsWords g := ⟨fun _ => id, fun _ _ _ _ => Iff.rfl⟩

theorem trans (hgh : g.KeepsWords h) (hhk : h.KeepsWords k) : g.KeepsWords k where
  heads head hh := hhk.heads head (hgh.heads head hh)
  derives head hh w hw :=
    (hhk.derives head (hgh.heads head hh) w hw).trans (hgh.derives head hh w hw)

/-- The rules of `g` are admissible in `h`, and those of `h` in `g` once the new names are read
as what they stand for. -/
theorem of_subst (heads : ∀ head ∈ g.heads, head ∈ h.heads)
    (old : ∀ head ∈ g.heads, σ head = [.nonterminal head])
    (there : ∀ head, ∀ q ∈ g.productions head, ∀ w, Yields h q w → h.Derives head w)
    (back : ∀ head, ∀ q ∈ h.productions head, ∀ w, Yields g (q.subst σ) w →
      Yields g (σ head) w) : g.KeepsWords h where
  heads := heads
  derives head hh w _ := by
    constructor
    · intro hd
      have hy : Yields g (Production.subst σ [.nonterminal head]) w := Yields.subst back hd
      rwa [Production.subst_nonterminal_cons, old head hh] at hy
    · exact fun hd => Yields.of_admissible there hd

theorem congr (hgh : g.KeepsWords h) (heads : ∀ head ∈ g.heads, head ∈ k.heads)
    (hp : ∀ name q, q ∈ h.productions name ↔ q ∈ k.productions name) : g.KeepsWords k where
  heads := heads
  derives head hh w hw := (Yields.congr hp).symm.trans (hgh.derives head hh w hw)

end KeepsWords

-- ---------------------------------------------------------------------------
-- A new head
-- ---------------------------------------------------------------------------

theorem not_mem_of_not_mentions (hn : ¬ g.Mentions name) (hq : q ∈ g.productions head) :
    .nonterminal name ∉ q :=
  fun hm => hn (mentions_iff.mpr (Or.inr ⟨(head, q), mem_rules_iff.mpr hq, hm⟩))

theorem not_mem_heads_of_not_mentions (hn : ¬ g.Mentions name) : name ∉ g.heads :=
  fun hh => hn (Or.inl hh)

theorem not_mem_productions_of_not_mentions (hn : ¬ g.Mentions name) : p ∉ g.productions name :=
  fun hp => not_mem_heads_of_not_mentions hn (mem_heads_of_mem_productions hp)

theorem derives_of_mem (hp : p ∈ g.productions head) (hy : Yields g p w) : g.Derives head w :=
  derives_iff.mpr ⟨p, hp, hy⟩

theorem yields_subst_of_add (hn : ¬ g.Mentions name)
    (hp : ∀ w, Yields g (p.subst (reading name q)) w → Yields g q w) {r : Production}
    (hy : Yields (g.add name p) r w) : Yields g (r.subst (reading name q)) w := by
  refine hy.subst fun other r hr v hv => ?_
  rcases mem_productions_add.mp hr with hr | ⟨rfl, rfl⟩
  · have hne : other ≠ name := fun he => not_mem_productions_of_not_mentions hn (he ▸ hr)
    rw [subst_reading_of_not_mem (not_mem_of_not_mentions hn hr)] at hv
    rw [reading_of_ne hne]
    exact derives_of_mem hr hv
  · rw [reading_self]
    exact hp v hv

/-- A new head does not disturb the old ones. Its production may mention it only where that
says no more than `q` does. -/
theorem keepsWords_add (hn : ¬ g.Mentions name)
    (hp : ∀ w, Yields g (p.subst (reading name q)) w → Yields g q w) :
    g.KeepsWords (g.add name p) where
  heads head hh := by simp [hh]
  derives head hh w _ := by
    have hne : head ≠ name := fun he => not_mem_heads_of_not_mentions hn (he ▸ hh)
    constructor
    · intro hd
      have hy := yields_subst_of_add hn hp hd
      rw [Production.subst_nonterminal_cons, reading_of_ne hne] at hy
      exact hy
    · exact Yields.mono fun other r hr => mem_productions_add.mpr (Or.inl hr)

theorem yields_of_subst_unit
    (hy : Yields g (Production.subst (reading name [.nonterminal head]) [.nonterminal head]) w) :
    Yields g [.nonterminal head] w := by
  by_cases he : head = name
  · subst he; simpa using hy
  · simpa [reading_of_ne he] using hy

theorem keepsWords_add_unit (hn : ¬ g.Mentions name) :
    g.KeepsWords (g.add name [.nonterminal head]) :=
  keepsWords_add hn fun _ => yields_of_subst_unit

theorem derives_add_unit_iff (hn : ¬ g.Mentions name) :
    (g.add name [.nonterminal head]).Derives name w ↔ g.Derives head w := by
  constructor
  · intro hd
    have hy := yields_subst_of_add hn (fun _ => yields_of_subst_unit) hd
    rw [Production.subst_nonterminal_cons, reading_self] at hy
    exact hy
  · intro hd
    refine derives_of_mem (mem_productions_add.mpr (Or.inr ⟨rfl, rfl⟩)) ?_
    exact Yields.mono (fun other r hr => mem_productions_add.mpr (Or.inl hr)) hd

theorem derives_add_unit_of_ne {other : String} (hn : ¬ g.Mentions name) (hne : other ≠ name) :
    (g.add name [.nonterminal head]).Derives other w ↔ g.Derives other w := by
  constructor
  · intro hd
    have hy := yields_subst_of_add hn (fun _ => yields_of_subst_unit) hd
    rw [Production.subst_nonterminal_cons, reading_of_ne hne] at hy
    exact hy
  · exact Yields.mono fun other r hr => mem_productions_add.mpr (Or.inl hr)

-- ---------------------------------------------------------------------------
-- Another production for an old one
-- ---------------------------------------------------------------------------

theorem mem_productions_replace {r : Production} {other : String} :
    r ∈ (g.replace head p q).productions other ↔
      r ∈ g.productions other ∧ ¬ (other = head ∧ r = p) ∨
        other = head ∧ p ∈ g.productions head ∧ r = q := by
  by_cases ho : other = head
  · subst ho
    rw [productions_replace_self]
    split
    · rename_i hp
      rw [OrderedSet.mem_supplant hp]
      grind
    · grind
  · rw [productions_replace_of_ne ho]
    simp [ho]

/-- The new production has to say the same as the old one, in the old grammar where it comes
from and in the new one where it goes. -/
theorem keepsWords_replace (hp : ∀ w, Yields g q w → Yields g p w)
    (hq : ∀ w, Yields (g.replace head p q) p w → Yields (g.replace head p q) q w) :
    g.KeepsWords (g.replace head p q) := by
  refine .of_subst (σ := fun name => [.nonterminal name]) (by simp) (fun _ _ => rfl) ?_ ?_
  · intro other r hr w hw
    by_cases he : other = head ∧ r = p
    · obtain ⟨rfl, rfl⟩ := he
      exact derives_of_mem (mem_productions_replace.mpr (Or.inr ⟨rfl, hr, rfl⟩)) (hq w hw)
    · exact derives_of_mem (mem_productions_replace.mpr (Or.inl ⟨hr, he⟩)) hw
  · intro other r hr w hw
    rw [Production.subst_eq_self fun _ _ => rfl] at hw
    rcases mem_productions_replace.mp hr with ⟨hr, _⟩ | ⟨rfl, hm, rfl⟩
    · exact derives_of_mem hr hw
    · exact derives_of_mem hm (hp w hw)

end Grammar

end ContextFree
