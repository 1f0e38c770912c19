import ContextFree.Wrapping
import ContextFree.Proofs.Rewriting
import ContextFree.Proofs.Words

/-!
# What wrapping does to a grammar

Wrapping edits the grammar in two ways only, which `Wrappers.Reached` records:
it makes a wrapper, or it puts a production with wrappers in the place of the
long one it comes from. A run of wrapping never leaves these states, not even
when the names run out (`Wrapped.reached`).

All else follows from the two edits: a wrapper derives its terminal and nothing
else (`Reached.derives_wrapper_iff`), so the words stay (`Reached.keepsWords`),
and so does every property of productions that the two edits respect
(`Reached.forall_productions`).
-/

namespace ContextFree

def Production.Mixed (p : Production) : Prop := 2 ≤ p.length ∧ p.hasTerminal = true

variable {g source : Grammar} {ws : Wrappers} {p q : Production} {w : List String}
variable {head name wrapper t : String}

namespace Wrappers

/-- The second production is the first with wrappers for its terminals. -/
inductive Wraps (ws : Wrappers) : Production → Production → Prop
  | nil : Wraps ws [] []
  | nonterminal {p q : Production} (name : String) (rest : Wraps ws p q) :
    Wraps ws (.nonterminal name :: p) (.nonterminal name :: q)
  | terminal {p q : Production} {t wrapper : String} (mem : (t, wrapper) ∈ ws)
    (rest : Wraps ws p q) : Wraps ws (.terminal t :: p) (.nonterminal wrapper :: q)

theorem Wraps.length_eq (h : ws.Wraps p q) : q.length = p.length := by
  induction h with
  | nil => rfl
  | nonterminal _ _ ih => simp [ih]
  | terminal _ _ ih => simp [ih]

theorem Wraps.not_hasTerminal (h : ws.Wraps p q) : q.hasTerminal = false := by
  induction h with
  | nil => rfl
  | nonterminal _ _ ih => exact ih
  | terminal _ _ ih => exact ih

theorem Wraps.yields_iff (hw : ∀ t wrapper, (t, wrapper) ∈ ws → ∀ v, g.Derives wrapper v ↔ v = [t])
    (h : ws.Wraps p q) : Yields g p w ↔ Yields g q w := by
  induction h generalizing w with
  | nil => exact Iff.rfl
  | nonterminal name _ ih => simp only [Yields.nonterminal_cons_iff, ih]
  | @terminal p q t wrapper mem _ ih =>
    rw [← List.singleton_append (l := p), ← List.singleton_append (l := q), Yields.append_iff,
      Yields.append_iff]
    have hd := hw t wrapper mem
    unfold Grammar.Derives at hd
    simp only [Yields.terminal_iff, hd, ih]

/-- The states of wrapping: a grammar that has come about from `source`, and the wrappers made
so far. -/
inductive Reached (source : Grammar) : Grammar → Wrappers → Prop
  | start : Reached source source []
  | wrapper {g : Grammar} {ws : Wrappers} {name : String} (t : String)
    (before : Reached source g ws) (fresh : ¬ g.Mentions name) :
    Reached source (g.add name [.terminal t]) (ws ++ [(t, name)])
  | put {g : Grammar} {ws : Wrappers} {p q : Production} (head : String)
    (before : Reached source g ws) (long : 2 ≤ p.length) (wraps : ws.Wraps p q) :
    Reached source (g.replace head p q) ws

-- ---------------------------------------------------------------------------
-- What holds in every state
-- ---------------------------------------------------------------------------

theorem Reached.mem_productions_wrapper (hr : Reached source g ws) (hm : (t, wrapper) ∈ ws) :
    q ∈ g.productions wrapper ↔ q = [.terminal t] := by
  induction hr generalizing q with
  | start => simp at hm
  | @wrapper g ws name t' _ fresh ih =>
    have hn : ∀ r, r ∉ g.productions name :=
      fun _ => Grammar.not_mem_productions_of_not_mentions fresh
    rw [Grammar.mem_productions_add]
    rcases List.mem_append.mp hm with hold | hm
    · have hne : wrapper ≠ name := fun he => hn _ (he ▸ (ih hold).mpr rfl)
      simp [ih hold, hne]
    · obtain ⟨rfl, rfl⟩ : t = t' ∧ wrapper = name := by simpa using hm
      simp [hn]
  | @put g ws p r head _ long _ ih =>
    have hp : p ∉ g.productions wrapper := fun hp => by
      rw [(ih hm).mp hp] at long
      simp at long
    rw [Grammar.mem_productions_replace, ← ih hm]
    constructor
    · rintro (⟨hq, _⟩ | ⟨rfl, h, _⟩)
      · exact hq
      · exact absurd h hp
    · refine fun hq => Or.inl ⟨hq, ?_⟩
      rintro ⟨_, rfl⟩
      exact hp hq

theorem Reached.derives_wrapper_iff (hr : Reached source g ws) (hm : (t, wrapper) ∈ ws) :
    g.Derives wrapper w ↔ w = [t] := by
  rw [Grammar.derives_iff]
  simp only [hr.mem_productions_wrapper hm, exists_eq_left, Yields.terminal_iff]

theorem Reached.keepsWords (hr : Reached source g ws) : source.KeepsWords g := by
  induction hr with
  | start => exact .refl _
  | @wrapper g ws name t _ fresh ih =>
    exact ih.trans (Grammar.keepsWords_add (q := [.terminal t]) fresh fun _ => id)
  | @put g ws p q head before long wraps ih =>
    have after := before.put head long wraps
    refine ih.trans (Grammar.keepsWords_replace (fun w hy => ?_) fun w hy => ?_)
    · exact (wraps.yields_iff fun _ _ hm _ => before.derives_wrapper_iff hm).mpr hy
    · exact (wraps.yields_iff fun _ _ hm _ => after.derives_wrapper_iff hm).mp hy

theorem Reached.forall_productions {P : Production → Prop} (hr : Reached source g ws)
    (hsource : ∀ head, ∀ p ∈ source.productions head, P p) (hwrapper : ∀ t, P [.terminal t])
    (hput : ∀ ws p q, Wraps ws p q → 2 ≤ p.length → P p → P q) :
    ∀ head, ∀ p ∈ g.productions head, P p := by
  induction hr with
  | start => exact hsource
  | wrapper t _ _ ih =>
    intro head p hp
    rcases Grammar.mem_productions_add.mp hp with hp | ⟨_, rfl⟩
    · exact ih head p hp
    · exact hwrapper t
  | put head _ long wraps ih =>
    intro other r hp
    rcases Grammar.mem_productions_replace.mp hp with ⟨hold, _⟩ | ⟨rfl, hold, rfl⟩
    · exact ih other r hold
    · exact hput _ _ _ wraps long (ih other _ hold)

end Wrappers

end ContextFree
