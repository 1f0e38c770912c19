import ContextFree.Proofs.Rewriting

/-!
# Names drawn one after another

`Drawn` says which names come out of a supply if a grammar stays as it is
meanwhile. They are distinct, the grammar mentions none of them, and their
number decides which they are (`Drawn.eq_of_length`). A supply that runs dry
has handed out as many names as can be drawn (`Drawn.length_le_of_dry`).

A grammar under rewriting does not stay as it is, but what is added to the
names it mentions are the names drawn so far, which lie behind the counter; so
every run of allocations is a row of draws (`Drawn.extend`).
-/

namespace ContextFree

namespace FreshNames

variable {g h : Grammar} {first names last : FreshNames} {drawn more : List String} {m n : Nat}

-- ---------------------------------------------------------------------------
-- Draws
-- ---------------------------------------------------------------------------

/-- Names handed out one after another while the grammar stays as it is. -/
inductive Drawn (g : Grammar) (first : FreshNames) : List String → FreshNames → Prop
  | nothing : Drawn g first [] first
  | next {drawn : List String} {names : FreshNames} {n : Nat} (before : Drawn g first drawn names)
    (free : names.FirstFree g n) :
    Drawn g first (drawn ++ [numbered names.stem n]) (names.past n)

theorem FirstFree.unique (hm : names.FirstFree g m) (hn : names.FirstFree g n) : m = n := by
  rcases Nat.lt_trichotomy m n with hlt | rfl | hlt
  · exact absurd (hn.taken m hm.ge hlt) hm.free
  · rfl
  · exact absurd (hm.taken n hn.ge hlt) hn.free

theorem FirstFree.not_dry (hf : names.FirstFree g n) : ¬ names.Dry g :=
  fun hd => hf.free (hd n hf.ge hf.lt)

theorem FirstFree.congr (hgh : ∀ m, names.next.toNat ≤ m →
      (g.Mentions (numbered names.stem m) ↔ h.Mentions (numbered names.stem m))) :
    names.FirstFree g n ↔ names.FirstFree h n :=
  ⟨fun hf => ⟨hf.ge, hf.lt, fun hm => hf.free ((hgh n hf.ge).mpr hm),
      fun m hm hlt => (hgh m hm).mp (hf.taken m hm hlt)⟩,
    fun hf => ⟨hf.ge, hf.lt, fun hm => hf.free ((hgh n hf.ge).mp hm),
      fun m hm hlt => (hgh m hm).mpr (hf.taken m hm hlt)⟩⟩

namespace Drawn

theorem single (hf : names.FirstFree g n) :
    Drawn g names [numbered names.stem n] (names.past n) := .next .nothing hf

theorem append (hd : Drawn g first drawn names) (hm : Drawn g names more last) :
    Drawn g first (drawn ++ more) last := by
  induction hm with
  | nothing => simpa using hd
  | next _ free ih => exact List.append_assoc .. ▸ ih.next free

theorem congr (hgh : ∀ name, g.Mentions name ↔ h.Mentions name) (hd : Drawn g first drawn names) :
    Drawn h first drawn names := by
  induction hd with
  | nothing => exact .nothing
  | next _ free ih => exact ih.next ((FirstFree.congr fun _ _ => hgh _).mp free)

theorem stem_eq (hd : Drawn g first drawn names) : names.stem = first.stem := by
  induction hd with
  | nothing => rfl
  | next _ _ ih => exact ih

theorem limit_eq (hd : Drawn g first drawn names) : names.limit = first.limit := by
  induction hd with
  | nothing => rfl
  | next _ _ ih => exact ih

theorem issued_eq (hd : Drawn g first drawn names) : names.issued = first.issued ++ drawn := by
  induction hd with
  | nothing => simp
  | @next drawn names n _ _ ih =>
    show names.issued ++ [numbered names.stem n] = _
    rw [ih, List.append_assoc]

theorem next_le (hd : Drawn g first drawn names) : first.next.toNat ≤ names.next.toNat := by
  induction hd with
  | nothing => exact Nat.le_refl _
  | next _ free ih =>
    rw [toNat_next_past free.lt]
    exact Nat.le_succ_of_le (Nat.le_trans ih free.ge)

theorem exists_number (hd : Drawn g first drawn names) {name : String} (hm : name ∈ drawn) :
    ∃ m, first.next.toNat ≤ m ∧ m < names.next.toNat ∧ name = numbered first.stem m ∧
      ¬ g.Mentions name := by
  induction hd with
  | nothing => simp at hm
  | @next drawn names n before free ih =>
    rw [toNat_next_past free.lt]
    rcases List.mem_append.mp hm with hm | hm
    · obtain ⟨m, hle, hlt, he, hf⟩ := ih hm
      exact ⟨m, hle, Nat.lt_succ_of_lt (Nat.lt_of_lt_of_le hlt free.ge), he, hf⟩
    · obtain rfl := List.mem_singleton.mp hm
      exact ⟨n, Nat.le_trans before.next_le free.ge, Nat.lt_succ_self n,
        by rw [before.stem_eq], free.free⟩

theorem not_mentions (hd : Drawn g first drawn names) : ∀ name ∈ drawn, ¬ g.Mentions name := by
  intro name hm
  obtain ⟨_, _, _, _, hf⟩ := hd.exists_number hm
  exact hf

theorem numbered_not_mem (hd : Drawn g first drawn names) (hm : names.next.toNat ≤ m) :
    numbered names.stem m ∉ drawn := by
  intro hmem
  obtain ⟨k, _, hlt, he, _⟩ := hd.exists_number hmem
  rw [hd.stem_eq] at he
  have hk : m = k := numbered_inj.mp he
  omega

theorem nodup (hd : Drawn g first drawn names) : drawn.Nodup := by
  induction hd with
  | nothing => exact List.nodup_nil
  | next before free ih =>
    refine List.nodup_append.mpr ⟨ih, List.pairwise_singleton .., fun a ha b hb he => ?_⟩
    obtain rfl := List.mem_singleton.mp hb
    exact before.numbered_not_mem free.ge (he ▸ ha)

theorem eq_of_length {others : List String} {end₁ end₂ : FreshNames}
    (h₁ : Drawn g first drawn end₁) (h₂ : Drawn g first others end₂)
    (hl : drawn.length = others.length) : drawn = others ∧ end₁ = end₂ := by
  induction h₁ generalizing others end₂ with
  | nothing =>
    cases h₂ with
    | nothing => exact ⟨rfl, rfl⟩
    | next => simp at hl
  | next _ free ih =>
    cases h₂ with
    | nothing => simp at hl
    | next before free' =>
      obtain ⟨rfl, rfl⟩ := ih before (by simpa using hl)
      obtain rfl := free.unique free'
      exact ⟨rfl, rfl⟩

theorem length_le_of_dry {others : List String} (hd : Drawn g first drawn names)
    (ho : Drawn g first others last) (hdry : last.Dry g) : drawn.length ≤ others.length := by
  induction hd with
  | nothing => exact Nat.zero_le _
  | next before free ih =>
    rw [List.length_append, List.length_singleton]
    refine Nat.lt_of_le_of_ne ih fun he => ?_
    obtain ⟨_, rfl⟩ := before.eq_of_length ho he
    exact free.not_dry hdry

-- ---------------------------------------------------------------------------
-- Allocation in a grammar under rewriting
-- ---------------------------------------------------------------------------

section
variable (hd : Drawn g first drawn names)
variable (hm : ∀ name, h.Mentions name ↔ g.Mentions name ∨ name ∈ drawn)
include hd hm

theorem mentions_numbered_iff (hle : names.next.toNat ≤ m) :
    h.Mentions (numbered names.stem m) ↔ g.Mentions (numbered names.stem m) := by
  rw [hm]
  exact or_iff_left (hd.numbered_not_mem hle)

/-- What is drawn beside the grammar that mentions the earlier draws is drawn beside the first
one. -/
theorem extend (hmore : Drawn h names more last) : Drawn g first (drawn ++ more) last := by
  induction hmore with
  | nothing => simpa using hd
  | @next more last n before free ih =>
    refine List.append_assoc .. ▸ ih.next ((FirstFree.congr fun m hle => ?_).mp free)
    rw [before.stem_eq]
    exact hd.mentions_numbered_iff hm (Nat.le_trans before.next_le hle)

theorem dry_of_dry (hmore : Drawn h names more last) (hdry : last.Dry h) : last.Dry g := by
  intro m hle hlt
  rw [hmore.stem_eq, ← hd.mentions_numbered_iff hm (Nat.le_trans hmore.next_le hle),
    ← hmore.stem_eq]
  exact hdry m hle hlt

end

end Drawn

/-- A supply that runs dry after fewer draws than are needed. -/
structure Short (g : Grammar) (first : FreshNames) (needed : Nat) (drawn : List String)
    (last : FreshNames) : Prop where
  draws : Drawn g first drawn last
  dry : last.Dry g
  few : drawn.length < needed

theorem Drawn.short {needed : Nat} (hd : Drawn g first drawn names)
    (hm : ∀ name, h.Mentions name ↔ g.Mentions name ∨ name ∈ drawn)
    (hs : Short h names needed more last) :
    Short g first (drawn.length + needed) (drawn ++ more) last := by
  refine ⟨hd.extend hm hs.draws, hd.dry_of_dry hm hs.draws hs.dry, ?_⟩
  rw [List.length_append]
  exact Nat.add_lt_add_left hs.few _

theorem Short.not_drawn {others : List String} (hs : Short g first drawn.length others last) :
    ¬ Drawn g first drawn names :=
  fun hd => Nat.not_le_of_lt hs.few (hd.length_le_of_dry hs.draws hs.dry)

-- ---------------------------------------------------------------------------
-- The tally
-- ---------------------------------------------------------------------------

/-- The tally counts the record, and the counter is not behind it. -/
structure Tallied (names : FreshNames) : Prop where
  allocated : names.allocated.toNat = names.issued.length
  next : names.issued.length ≤ names.next.toNat

theorem tallied_start (stem : String) (limit : UInt32) : (start stem limit).Tallied :=
  ⟨rfl, Nat.zero_le _⟩

theorem Tallied.past (ht : names.Tallied) (hf : names.FirstFree g n) : (names.past n).Tallied := by
  have hlt := hf.lt
  have hmax := names.limit.toNat_lt
  have hge := hf.ge
  obtain ⟨ha, hn⟩ := ht
  constructor
  · show (names.allocated + 1).toNat = (names.issued ++ [numbered names.stem n]).length
    rw [UInt32.toNat_add, UInt32.toNat_one, List.length_append, List.length_singleton]
    omega
  · rw [toNat_next_past hlt]
    show (names.issued ++ [numbered names.stem n]).length ≤ n + 1
    rw [List.length_append, List.length_singleton]
    omega

theorem Drawn.tallied (hd : Drawn g first drawn names) (ht : first.Tallied) : names.Tallied := by
  induction hd with
  | nothing => exact ht
  | next _ free ih => exact ih.past free

end FreshNames

end ContextFree
