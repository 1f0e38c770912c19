import ContextFree.Chaining
import ContextFree.Proofs.Words

/-!
# What chaining does to a grammar

A chain is installed one production at a time, over links that nothing mentions
yet; `Chained` records the grammars that come about so.

A chain is as good as cutting off the tail of a production again and again: the
tail goes to a fresh head, and the head's name takes its place
(`keepsWords_cut`). So the words stay (`Chained.keepsWords`). All productions
put in are pairs of which the second symbol is a link or was in the long
production (`Chained.forall_productions`).
-/

namespace ContextFree

variable {g source : Grammar} {p q rest : Production} {w : List String}
variable {head name link other : String} {links : List String} {s x : Symbol}

-- ---------------------------------------------------------------------------
-- The productions of a chain
-- ---------------------------------------------------------------------------

namespace Production

theorem chain_cons (x : Symbol) (rest : Production) (link : String) (links : List String) :
    chain (x :: rest) (link :: links) = [x, .nonterminal link] :: chain rest links := rfl

theorem chain_nil (p : Production) : p.chain [] = [p] := by
  cases p <;> rfl

theorem chain_ne_nil (p : Production) (links : List String) : p.chain links ≠ [] := by
  cases p <;> cases links <;> simp [chain]

end Production

namespace Grammar

theorem mem_productions_install {first : Production} {later : List Production}
    (hc : p.chain links = first :: later) :
    q ∈ (g.install (head, p) links).productions other ↔
      q ∈ g.productions other ∧ ¬ (other = head ∧ q = p) ∨
        other = head ∧ p ∈ g.productions head ∧ q = first ∨ (other, q) ∈ links.zip later := by
  simp only [install, hc, mem_productions_addAll, mem_productions_replace, or_assoc]

theorem mem_heads_install (hh : other ∈ g.heads) (rule : Rule) (links : List String) :
    other ∈ (g.install rule links).heads := by
  unfold install
  split
  · exact hh
  · simp [hh]

-- ---------------------------------------------------------------------------
-- Cutting off a tail
-- ---------------------------------------------------------------------------

/-- The tail of a production under a head of its own, and that head in its place. -/
def cut (g : Grammar) (head : String) (x : Symbol) (rest : Production) (link : String) : Grammar :=
  (g.add link rest).replace head (x :: rest) [x, .nonterminal link]

section
variable (hn : ¬ g.Mentions link) (hp : x :: rest ∈ g.productions head)
include hn hp

theorem mem_productions_cut : q ∈ (g.cut head x rest link).productions other ↔
    q ∈ g.productions other ∧ ¬ (other = head ∧ q = x :: rest) ∨ other = link ∧ q = rest ∨
      other = head ∧ q = [x, .nonterminal link] := by
  have hne : link ≠ head := fun he => not_mem_productions_of_not_mentions hn (he ▸ hp)
  rw [cut, mem_productions_replace]
  simp only [mem_productions_add, hp]
  grind

theorem keepsWords_cut : g.KeepsWords (g.cut head x rest link) := by
  have hl : ∀ r, r ∉ g.productions link := fun _ => not_mem_productions_of_not_mentions hn
  have hrest : .nonterminal link ∉ rest := fun hm =>
    not_mem_of_not_mentions hn hp (List.mem_cons_of_mem _ hm)
  have hadd : g.KeepsWords (g.add link rest) := by
    refine keepsWords_add (q := rest) hn fun w hw => ?_
    rwa [subst_reading_of_not_mem hrest] at hw
  refine hadd.trans (keepsWords_replace (fun w hy => ?_) fun w hy => ?_)
  · obtain ⟨u, v, rfl, hx, hv⟩ := Yields.cons_iff.mp hy
    obtain ⟨r, hr, hy⟩ := derives_iff.mp hv
    obtain rfl : r = rest := by simpa [hl] using hr
    exact Yields.cons_iff.mpr ⟨u, v, rfl, hx, hy⟩
  · obtain ⟨u, v, rfl, hx, hv⟩ := Yields.cons_iff.mp hy
    have hm : rest ∈ (g.cut head x rest link).productions link :=
      (mem_productions_cut hn hp).mpr (Or.inr (Or.inl ⟨rfl, rfl⟩))
    exact Yields.cons_iff.mpr ⟨u, v, rfl, hx, derives_of_mem hm hv⟩

theorem mentions_of_mentions_cut (hm : (g.cut head x rest link).Mentions name) :
    g.Mentions name ∨ name = link := by
  have hmem : ∀ r ∈ g.productions head, .nonterminal name ∈ r → g.Mentions name :=
    fun r hr hs => mentions_iff.mpr (Or.inr ⟨(head, r), mem_rules_iff.mpr hr, hs⟩)
  rcases mentions_iff.mp hm with hh | ⟨⟨other, r⟩, hr, hs⟩
  · simp only [cut, heads_replace, mem_heads_add] at hh
    exact hh.imp_left Or.inl
  · rw [mem_rules_iff, mem_productions_cut hn hp] at hr
    rcases hr with ⟨hr, _⟩ | ⟨_, rfl⟩ | ⟨_, rfl⟩
    · exact Or.inl (mentions_iff.mpr (Or.inr ⟨(other, r), mem_rules_iff.mpr hr, hs⟩))
    · exact Or.inl (hmem _ hp (List.mem_cons_of_mem _ hs))
    · rcases List.mem_cons.mp hs with hx | hs
      · exact Or.inl (hmem _ hp (hx ▸ List.mem_cons_self))
      · exact Or.inr (by simpa using hs)

/-- A chain over several links is a cut at the first and a chain of the tail over the others. -/
theorem mem_productions_install_cut :
    q ∈ ((g.cut head x rest link).install (link, rest) links).productions other ↔
      q ∈ (g.install (head, x :: rest) (link :: links)).productions other := by
  have hl : ∀ r, r ∉ g.productions link := fun _ => not_mem_productions_of_not_mentions hn
  cases hc : rest.chain links with
  | nil => exact absurd hc (Production.chain_ne_nil rest links)
  | cons first later =>
    have hc' := Production.chain_cons x rest link links
    rw [hc] at hc'
    rw [mem_productions_install hc, mem_productions_install hc', mem_productions_cut hn hp,
      mem_productions_cut hn hp, List.zip_cons_cons, List.mem_cons]
    grind

end

theorem keepsWords_install (hp : p ∈ g.productions head) (hl : links.length ≤ p.length)
    (hn : links.Nodup) (hf : ∀ link ∈ links, ¬ g.Mentions link) :
    g.KeepsWords (g.install (head, p) links) := by
  induction links generalizing g head p with
  | nil =>
    refine (KeepsWords.refl g).congr (fun _ hh => mem_heads_install hh _ _) fun other q => ?_
    rw [mem_productions_install (Production.chain_nil p), List.zip_nil_left]
    grind
  | cons link links ih =>
    cases p with
    | nil => simp at hl
    | cons x rest =>
      rw [List.nodup_cons] at hn
      have hlink := hf link List.mem_cons_self
      have hmem : rest ∈ (g.cut head x rest link).productions link :=
        (mem_productions_cut hlink hp).mpr (Or.inr (Or.inl ⟨rfl, rfl⟩))
      have hfresh : ∀ other ∈ links, ¬ (g.cut head x rest link).Mentions other := by
        intro other ho hm
        rcases mentions_of_mentions_cut hlink hp hm with hm | rfl
        · exact hf other (List.mem_cons_of_mem _ ho) hm
        · exact hn.1 ho
      have htail := ih hmem (by simpa using hl) hn.2 hfresh
      exact ((keepsWords_cut hlink hp).trans htail).congr
        (fun _ hh => mem_heads_install hh _ _)
        (fun _ _ => mem_productions_install_cut hlink hp)

end Grammar

-- ---------------------------------------------------------------------------
-- What holds in every state
-- ---------------------------------------------------------------------------

/-- The grammars that come about from `source` by installing chains over fresh links. -/
inductive Chained (source : Grammar) : Grammar → Prop
  | start : Chained source source
  | install {g : Grammar} {head : String} {p : Production} {links : List String}
    (before : Chained source g) (rule : p ∈ g.productions head) (long : 2 < p.length)
    (count : links.length = p.length - 2) (distinct : links.Nodup)
    (fresh : ∀ link ∈ links, ¬ g.Mentions link) : Chained source (g.install (head, p) links)

theorem Production.mem_chain (hl : p.length = links.length + 2) (hq : q ∈ p.chain links) :
    ∃ x s, q = [x, s] ∧ x ∈ p ∧ (s ∈ p ∨ ∃ link, s = .nonterminal link) := by
  induction links generalizing p with
  | nil =>
    match p, hl with
    | [x, s], _ =>
      rw [chain_nil, List.mem_singleton] at hq
      exact ⟨x, s, hq, by simp, by simp⟩
  | cons link links ih =>
    cases p with
    | nil => simp at hl
    | cons x rest =>
      rw [chain_cons, List.mem_cons] at hq
      rcases hq with rfl | hq
      · exact ⟨x, .nonterminal link, rfl, by simp, Or.inr ⟨link, rfl⟩⟩
      · obtain ⟨y, s, rfl, hy, hs⟩ := ih (by simpa using hl) hq
        exact ⟨y, s, rfl, List.mem_cons_of_mem _ hy, hs.imp_left (List.mem_cons_of_mem _)⟩

theorem Grammar.mem_productions_of_mem_install
    (hq : q ∈ (g.install (head, p) links).productions other) :
    q ∈ g.productions other ∧ ¬ (other = head ∧ q = p) ∨ q ∈ p.chain links := by
  cases hc : p.chain links with
  | nil => exact absurd hc (Production.chain_ne_nil p links)
  | cons first later =>
    rcases (mem_productions_install hc).mp hq with hq | ⟨_, _, rfl⟩ | hq
    · exact Or.inl hq
    · exact Or.inr List.mem_cons_self
    · exact Or.inr (List.mem_cons_of_mem _ (List.of_mem_zip hq).2)

namespace Chained

theorem keepsWords (hc : Chained source g) : source.KeepsWords g := by
  induction hc with
  | start => exact .refl _
  | install _ rule _ count distinct fresh ih =>
    exact ih.trans (Grammar.keepsWords_install rule (by omega) distinct fresh)

theorem forall_productions {P : Production → Prop} (hc : Chained source g)
    (hsource : ∀ head, ∀ p ∈ source.productions head, P p)
    (hpair : ∀ p x s, P p → 2 < p.length → x ∈ p → (s ∈ p ∨ ∃ link, s = .nonterminal link) →
      P [x, s]) : ∀ head, ∀ p ∈ g.productions head, P p := by
  induction hc with
  | start => exact hsource
  | @install g head p links _ rule long count _ _ ih =>
    intro other q hq
    rcases Grammar.mem_productions_of_mem_install hq with ⟨hq, _⟩ | hq
    · exact ih other q hq
    · obtain ⟨x, s, rfl, hx, hs⟩ := Production.mem_chain (by omega) hq
      exact hpair p x s (ih head p rule) long hx hs

end Chained

end ContextFree
