import ContextFree.FreshNames

/-!
# Fresh names and the outcomes of rewriting

`allocate_cases` says all that an allocation can do: it hands out the first
name from the counter on that the grammar does not mention and sets the counter
behind it, or all names are mentioned and the counter ends at the limit.

`Triple` speaks of both outcomes of a rewriting step: what holds of the answer
and the workspace when it finishes, and of the workspace it leaves behind when
the names run out.
-/

namespace ContextFree

-- ---------------------------------------------------------------------------
-- Allocation
-- ---------------------------------------------------------------------------

namespace FreshNames

variable {g : Grammar} {names : FreshNames} {stem : String} {m n : Nat}

theorem numbered_inj : numbered stem m = numbered stem n ↔ m = n := by
  refine ⟨fun h => ?_, fun h => h ▸ rfl⟩
  have hr : m.repr = n.repr := (String.append_right_inj stem).mp h
  have hd : Nat.toDigits 10 m = Nat.toDigits 10 n := by
    rw [← Nat.toList_repr, ← Nat.toList_repr, hr]
  rw [← Nat.ofDigitChars_ten_toDigits (n := m), hd, Nat.ofDigitChars_ten_toDigits]

/-- `n` is the first number from the counter on whose name the grammar does not mention. -/
structure FirstFree (g : Grammar) (names : FreshNames) (n : Nat) : Prop where
  ge : names.next.toNat ≤ n
  lt : n < names.limit.toNat
  free : ¬ g.Mentions (numbered names.stem n)
  taken : ∀ m, names.next.toNat ≤ m → m < n → g.Mentions (numbered names.stem m)

/-- The grammar mentions all names from the counter on. -/
def Dry (g : Grammar) (names : FreshNames) : Prop :=
  ∀ m, names.next.toNat ≤ m → m < names.limit.toNat → g.Mentions (numbered names.stem m)

def past (names : FreshNames) (n : Nat) : FreshNames :=
  { names with
    next := .ofNat (n + 1)
    allocated := names.allocated + 1
    issued := names.issued ++ [numbered names.stem n] }

def spent (names : FreshNames) : FreshNames :=
  { names with next := if names.next < names.limit then names.limit else names.next }

theorem toNat_next_past (h : n < names.limit.toNat) : (names.past n).next.toNat = n + 1 := by
  have hmax := names.limit.toNat_lt
  have ho : (UInt32.ofNat (n + 1)).toNat = (n + 1) % 2 ^ 32 := UInt32.toNat_ofNat'
  show (UInt32.ofNat (n + 1)).toNat = n + 1
  omega

theorem take_eq_past (names : FreshNames) : names.take = names.past names.next.toNat := by
  simp [take, past, candidate, UInt32.ofNat_add]

theorem spent_skip (h : names.next < names.limit) : names.skip.spent = names.spent := by
  have hs := toNat_next_skip h
  have hlt := UInt32.lt_iff_toNat_lt.mp h
  have hn : (if names.skip.next < names.limit then names.limit else names.skip.next) =
      names.limit := by
    split
    · rfl
    · rename_i hge
      rw [UInt32.lt_iff_toNat_lt] at hge
      exact UInt32.toNat_inj.mp (by omega)
  show { names with next := if names.skip.next < names.limit then names.limit else _ } = _
  simp only [hn, spent, if_pos h]

theorem allocate_cases (g : Grammar) (names : FreshNames) :
    (∃ n, names.FirstFree g n ∧
      allocate g names = (some (numbered names.stem n), names.past n)) ∨
    names.Dry g ∧ allocate g names = (none, names.spent) := by
  fun_induction allocate g names with
  | case1 names hlt hm ih =>
    have hs := toNat_next_skip hlt
    have first : ∀ m, names.next.toNat ≤ m → ¬ names.skip.next.toNat ≤ m →
        g.Mentions (numbered names.stem m) := fun m h₁ h₂ => by
      obtain rfl : m = names.next.toNat := by omega
      exact hm
    rcases ih with ⟨n, hf, he⟩ | ⟨hall, he⟩
    · refine Or.inl ⟨n, ⟨by have := hf.ge; omega, hf.lt, hf.free, fun m h₁ h₂ => ?_⟩, he⟩
      by_cases h : names.skip.next.toNat ≤ m
      · exact hf.taken m h h₂
      · exact first m h₁ h
    · refine Or.inr ⟨fun m h₁ h₂ => ?_, by rw [he, spent_skip hlt]⟩
      by_cases h : names.skip.next.toNat ≤ m
      · exact hall m h h₂
      · exact first m h₁ h
  | case2 names hlt hm =>
    refine Or.inl ⟨names.next.toNat, ⟨Nat.le_refl _, UInt32.lt_iff_toNat_lt.mp hlt, hm, ?_⟩, ?_⟩
    · omega
    · rw [take_eq_past]; rfl
  | case3 names hlt =>
    refine Or.inr ⟨fun m h₁ h₂ => ?_, by rw [spent, if_neg hlt]⟩
    exact absurd (UInt32.lt_iff_toNat_lt.mpr (by omega)) hlt

end FreshNames

-- ---------------------------------------------------------------------------
-- Outcomes
-- ---------------------------------------------------------------------------

namespace Rewriting

variable {α β : Type} {step : Rewriting α} {next : α → Rewriting β} {w : Workspace}
variable {P P' : α → Workspace → Prop} {Q : β → Workspace → Prop}
variable {E E' : Exhausted → Workspace → Prop}

/-- From `w` the step finishes as `done` says or stops as `stopped` says. -/
def Triple (step : Rewriting α) (w : Workspace) (done : α → Workspace → Prop)
    (stopped : Exhausted → Workspace → Prop) : Prop :=
  match step w with
  | .ok a w' => done a w'
  | .error e w' => stopped e w'

theorem Triple.pure {a : α} (h : P a w) : Triple (pure a) w P E := h

theorem Triple.bind (hs : Triple step w P E) (hn : ∀ a w', P a w' → Triple (next a) w' Q E) :
    Triple (step >>= next) w Q E := by
  unfold Triple at hs ⊢
  show match EStateM.bind step next w with
    | .ok b w' => Q b w'
    | .error e w' => E e w'
  unfold EStateM.bind
  cases hr : step w with
  | ok a w' => rw [hr] at hs; exact hn a w' hs
  | error e w' => rw [hr] at hs; exact hs

theorem Triple.mono (hs : Triple step w P E) (hp : ∀ a w', P a w' → P' a w')
    (he : ∀ e w', E e w' → E' e w') : Triple step w P' E' := by
  unfold Triple at hs ⊢
  cases hr : step w with
  | ok a w' => rw [hr] at hs; exact hp a w' hs
  | error e w' => rw [hr] at hs; exact he e w' hs

theorem Triple.mono_stopped (hs : Triple step w P E) (he : ∀ e w', E e w' → E' e w') :
    Triple step w P E' :=
  hs.mono (fun _ _ => id) he

theorem Triple.of_ok {a : α} {w' : Workspace} (hs : Triple step w P E) (h : step w = .ok a w') :
    P a w' := by
  unfold Triple at hs
  rwa [h] at hs

theorem Triple.of_error {e : Exhausted} {w' : Workspace} (hs : Triple step w P E)
    (h : step w = .error e w') : E e w' := by
  unfold Triple at hs
  rwa [h] at hs

theorem Triple.get {next : Workspace → Rewriting α} (h : Triple (next w) w P E) :
    Triple (get >>= next) w P E := h

theorem Triple.edit {f : Grammar → Grammar} {Q : Unit → Workspace → Prop}
    (h : Q () { w with grammar := f w.grammar }) : Triple (edit f) w Q E := h

theorem fresh_triple (w : Workspace) :
    Triple fresh w
      (fun name w' => ∃ n, w.names.FirstFree w.grammar n ∧
        name = FreshNames.numbered w.names.stem n ∧ w' = { w with names := w.names.past n })
      (fun e w' => w' = { w with names := w.names.spent } ∧
        e = ⟨w.names.stem, w.names.limit⟩ ∧ w.names.Dry w.grammar) := by
  unfold Triple fresh
  rcases FreshNames.allocate_cases w.grammar w.names with ⟨n, hf, he⟩ | ⟨hd, he⟩
  · simp only [he]
    exact ⟨n, hf, rfl, rfl⟩
  · simp only [he]
    exact ⟨trivial, rfl, hd⟩

end Rewriting
end ContextFree
