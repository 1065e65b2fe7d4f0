import MosquittoSubs.Preservation

set_option autoImplicit false

/-!
# The two views of a subscription, and the counters

Read off the invariant in every reachable state: a leaf is reachable from its list and from
its client's array and from nowhere else, and in the `WITH_SYS_TREE` build the counters count
the leaves of the normal and of the shared lists.
-/

namespace MosquittoSubs.Consistency
open Model Run Invariant Preservation

variable {env : Env} {s : Broker}

theorem mem_subs_of_leaf (hs : Lists env s) {l : LeafRef} {leaf : Subleaf}
    (hl : s.leaves l = some leaf) : ∃ x, l ∈ s.subs x ∧ leaf.host = some x := by
  obtain ⟨a, ha⟩ := Option.isSome_iff_exists.mp (hs.hosted l leaf hl)
  exact ⟨Host.of a leaf.shared, (hs.listed _ l).mpr ⟨leaf, hl, by simp [ha]⟩, by simp [ha]⟩

theorem leaf_iff_listed (hs : Lists env s) (l : LeafRef) (P : Subleaf → Prop) :
    (∃ leaf, s.leaves l = some leaf ∧ P leaf) ↔
      ∃ x leaf, l ∈ s.subs x ∧ s.leaves l = some leaf ∧ P leaf := by
  constructor
  · rintro ⟨leaf, hl, hp⟩
    obtain ⟨x, hx, -⟩ := mem_subs_of_leaf hs hl
    exact ⟨x, leaf, hx, hl, hp⟩
  · rintro ⟨-, leaf, -, hl, hp⟩
    exact ⟨leaf, hl, hp⟩

/-- In every reachable state the leaf lists, the leaves' back pointers and the clients'
arrays agree, and no list holds two leaves of clients with one id. -/
theorem leaves_consistent {ok : Op → Int → Prop} (h : Reachable env ok s) :
    (∀ x l, l ∈ s.subs x → (s.hier x.addr).isSome ∧
      ∃ leaf, s.leaves l = some leaf ∧ leaf.hier = some x.addr ∧ leaf.shared = x.sharedName) ∧
    (∀ c l, l ∈ (s.contexts c).subs.filterMap id ↔
      ∃ x leaf, l ∈ s.subs x ∧ s.leaves l = some leaf ∧ leaf.context = c) ∧
    (∀ c, ((s.contexts c).subs.filterMap id).Nodup) ∧
    (∀ c, (s.contexts c).subsCount = ((s.contexts c).subs.filterMap id).length) ∧
    (∀ x, (s.subs x).Pairwise fun l m => leafId env s l ≠ leafId env s m) := by
  have hs := inv_reachable h
  refine ⟨fun x l hx => ?_, fun c l => ?_, fun c => (hs.slots c).nodup,
    fun c => (hs.slots c).count, hs.lists.ids⟩
  · obtain ⟨leaf, hl, hh⟩ := (hs.lists.listed x l).mp hx
    exact ⟨hier_of_listed hs.tree hs.lists hl hh, leaf, hl, (Subleaf.host_eq_some _ _).mp hh⟩
  · exact ((hs.slots c).mem l).trans (leaf_iff_listed hs.lists l _)

theorem leaves_consistent_after_subscribe :
    let s := ((Op.subAdd 1 ⟨"a", 0, 0⟩ ["", "a"] none).run (plainEnv false) emptyBroker).2
    (∀ x l, l ∈ s.subs x → (s.hier x.addr).isSome ∧
      ∃ leaf, s.leaves l = some leaf ∧ leaf.hier = some x.addr ∧ leaf.shared = x.sharedName) ∧
    (∀ c l, l ∈ (s.contexts c).subs.filterMap id ↔
      ∃ x leaf, l ∈ s.subs x ∧ s.leaves l = some leaf ∧ leaf.context = c) ∧
    (∀ c, ((s.contexts c).subs.filterMap id).Nodup) ∧
    (∀ c, (s.contexts c).subsCount = ((s.contexts c).subs.filterMap id).length) ∧
    (∀ x, (s.subs x).Pairwise fun l m =>
      leafId (plainEnv false) s l ≠ leafId (plainEnv false) s m) :=
  leaves_consistent
    (@Reachable.step (plainEnv false) (fun _ _ => True) _ _ (.init initial_emptyBroker) trivial)

theorem count_eq_ncard (hs : Lists env s) (p : Subleaf → Bool) :
    count s p = {l | ∃ leaf, s.leaves l = some leaf ∧ p leaf}.ncard := by
  rw [count, ← Set.ncard_coe_Finset]
  congr 1
  ext l
  simp only [Finset.coe_filter, Finset.mem_range, Set.mem_setOf_eq]
  constructor
  · rintro ⟨-, hp⟩
    cases hl : s.leaves l <;> simp_all
  · rintro ⟨leaf, hl, hp⟩
    exact ⟨Nat.lt_of_not_le fun h => by simp [hs.fresh l h] at hl, by simp [hl, hp]⟩

theorem normal_leaves (hs : Lists env s) :
    {l | ∃ a, l ∈ s.subs (.normal a)} = {l | ∃ leaf, s.leaves l = some leaf ∧ leaf.shared.isNone} := by
  ext l
  simp only [Set.mem_setOf_eq, hs.listed, Subleaf.host_eq_some, Host.addr, Host.sharedName]
  constructor
  · rintro ⟨a, leaf, hl, -, hg⟩
    exact ⟨leaf, hl, by simp [hg]⟩
  · rintro ⟨leaf, hl, hg⟩
    obtain ⟨a, ha⟩ := Option.isSome_iff_exists.mp (hs.hosted l leaf hl)
    exact ⟨a, leaf, hl, ha, Option.isNone_iff_eq_none.mp hg⟩

theorem shared_leaves (hs : Lists env s) :
    {l | ∃ a g, l ∈ s.subs (.shared a g)} =
      {l | ∃ leaf, s.leaves l = some leaf ∧ leaf.shared.isSome} := by
  ext l
  simp only [Set.mem_setOf_eq, hs.listed, Subleaf.host_eq_some, Host.addr, Host.sharedName]
  constructor
  · rintro ⟨a, g, leaf, hl, -, hg⟩
    exact ⟨leaf, hl, by simp [hg]⟩
  · rintro ⟨leaf, hl, hg⟩
    obtain ⟨a, ha⟩ := Option.isSome_iff_exists.mp (hs.hosted l leaf hl)
    obtain ⟨g, hg⟩ := Option.isSome_iff_exists.mp hg
    exact ⟨a, g, leaf, hl, ha, hg⟩

/-- In the `WITH_SYS_TREE` build, in every reachable state, `db.subscription_count` is the
number of leaves in the nodes' lists and `db.shared_subscription_count` the number in the
shared groups. -/
theorem counters_exact {ok : Op → Int → Prop} (hsys : env.withSysTree = true)
    (h : Reachable env ok s) :
    s.subscriptionCount = {l | ∃ a, l ∈ s.subs (.normal a)}.ncard ∧
      s.sharedSubscriptionCount = {l | ∃ a g, l ∈ s.subs (.shared a g)}.ncard := by
  have hs := inv_reachable h
  obtain ⟨h₁, h₂⟩ := hs.counted hsys
  rw [normal_leaves hs.lists, shared_leaves hs.lists, ← count_eq_ncard hs.lists,
    ← count_eq_ncard hs.lists, h₁, h₂]
  exact ⟨rfl, rfl⟩

theorem counters_exact_after_subscribe :
    let s := ((Op.subAdd 1 ⟨"a", 0, 0⟩ ["", "a"] none).run (plainEnv true) emptyBroker).2
    s.subscriptionCount = {l | ∃ a, l ∈ s.subs (.normal a)}.ncard ∧
      s.sharedSubscriptionCount = {l | ∃ a g, l ∈ s.subs (.shared a g)}.ncard :=
  counters_exact rfl
    (@Reachable.step (plainEnv true) (fun _ _ => True) _ _ (.init initial_emptyBroker) trivial)

end MosquittoSubs.Consistency
