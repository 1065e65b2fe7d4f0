import MosquittoSubs.Run
import MosquittoSubs.Frame

set_option autoImplicit false

/-!
# The engine's invariant

What every operation keeps, whatever the allocator, the collaborators and the callers do:

* the trie: no node at the empty address, a node's `children` hash holds exactly the keys of
  the nodes one level below it (a root's children are its children, not other roots), each
  once; a node's `shared` hash names each group once, and names exactly the groups whose
  lists are non-empty; a missing node's list is empty;
* the leaves: a leaf is in the list its back pointers `hier` and `shared` name and in no
  other, each list holds a leaf once and never two leaves of clients with the same id, and
  every leaf has been given its back pointers;
* the index: each client's `subs` array holds each of its leaves in one slot, and
  `subs_count` counts the non-NULL slots;
* in the `WITH_SYS_TREE` build, the two counters count the normal and the shared leaves.
-/

namespace MosquittoSubs.Invariant
open Model Publish SysTree Subscribe Unsubscribe Clean Run Frame

/-- The id of the client whose leaf is at `l`; `none` for a free address. -/
def leafId (env : Env) (s : Broker) (l : LeafRef) : Option String :=
  (s.leaves l).bind fun leaf => (env.client leaf.context).id

/-- The number of leaves on the heap that satisfy `p`. -/
def count (s : Broker) (p : Subleaf → Bool) : Nat :=
  ((Finset.range s.allocs).filter fun l => (s.leaves l).any p).card

/-- The non-NULL slots of a client's `subs` array. -/
def held (ctx : Context) : List LeafRef := ctx.subs.filterMap id

/-- The trie's shape, and which lists may hold leaves. -/
structure Tree (s : Broker) : Prop where
  root : s.hier [] = none
  children : ∀ a k, k ∈ s.children a ↔ (s.hier (k :: a)).isSome ∧ a ≠ []
  childrenNodup : ∀ a, (s.children a).Nodup
  groupsNodup : ∀ a, (s.groups a).Nodup
  groups : ∀ a g, g ∈ s.groups a ↔ s.subs (.shared a g) ≠ []
  normalDead : ∀ a, s.hier a = none → s.subs (.normal a) = []

/-- The leaf lists agree with the leaves' back pointers. -/
structure Lists (env : Env) (s : Broker) : Prop where
  listed : ∀ h l, l ∈ s.subs h ↔ ∃ leaf, s.leaves l = some leaf ∧ leaf.host = some h
  nodup : ∀ h, (s.subs h).Nodup
  hosted : ∀ l leaf, s.leaves l = some leaf → leaf.hier.isSome
  ids : ∀ h, (s.subs h).Pairwise fun l m => leafId env s l ≠ leafId env s m
  fresh : ∀ l, s.allocs ≤ l → s.leaves l = none

/-- The client's array holds each of its leaves in exactly one slot, and `subs_count`
counts them. -/
structure Slots (s : Broker) (c : ClientRef) : Prop where
  mem : ∀ l, l ∈ held (s.contexts c) ↔ ∃ leaf, s.leaves l = some leaf ∧ leaf.context = c
  nodup : (held (s.contexts c)).Nodup
  count : (s.contexts c).subsCount = (held (s.contexts c)).length

/-- In the `WITH_SYS_TREE` build the counters count the normal and the shared leaves. -/
def Counted (env : Env) (s : Broker) : Prop :=
  env.withSysTree = true → s.subscriptionCount = count s (·.shared.isNone) ∧
    s.sharedSubscriptionCount = count s (·.shared.isSome)

structure Inv (env : Env) (s : Broker) : Prop where
  tree : Tree s
  lists : Lists env s
  slots : ∀ c, Slots s c
  counted : Counted env s

variable {env : Env} {s s' : Broker}

/-! ## Counting leaves -/

theorem filter_range_eq (t : Broker) (p : Subleaf → Bool) {M N : Nat} (hMN : M ≤ N)
    (hfresh : ∀ l, M ≤ l → (t.leaves l).any p = false) :
    ((Finset.range N).filter fun l => (t.leaves l).any p) =
      (Finset.range M).filter fun l => (t.leaves l).any p := by
  ext l
  simp only [Finset.mem_filter, Finset.mem_range]
  constructor
  · rintro ⟨-, hp⟩
    exact ⟨Nat.lt_of_not_le fun h => by simp [hfresh l h] at hp, hp⟩
  · rintro ⟨hl, hp⟩
    exact ⟨by omega, hp⟩

theorem count_congr (p : Subleaf → Bool) (hleaves : ∀ l, (s'.leaves l).any p = (s.leaves l).any p)
    (hallocs : s.allocs ≤ s'.allocs) (hfresh : ∀ l, s.allocs ≤ l → s.leaves l = none) :
    count s' p = count s p := by
  unfold count
  rw [filter_range_eq s' p hallocs fun l hl => by rw [hleaves, hfresh l hl]; rfl]
  exact congrArg _ (Finset.filter_congr fun l _ => by rw [hleaves])

theorem count_store (p : Subleaf → Bool) (leaf : Subleaf) {L : Nat} (hL : s.allocs ≤ L)
    (hleaves : s'.leaves = Function.update s.leaves L (some leaf))
    (hallocs : L < s'.allocs) (hfresh : ∀ l, s.allocs ≤ l → s.leaves l = none) :
    count s' p = count s p + if p leaf then 1 else 0 := by
  have hfresh' : ∀ l, L + 1 ≤ l → s'.leaves l = none := fun l hl => by
    rw [hleaves, Function.update_noteq (show l ≠ L by omega), hfresh l (by omega)]
  rw [count, filter_range_eq s' p hallocs fun l hl => by rw [hfresh' l hl]; rfl, hleaves,
    Finset.range_succ, Finset.filter_insert]
  have hmem : L ∉ (Finset.range s.allocs).filter fun l => (s.leaves l).any p := fun h => by
    rw [Finset.mem_filter, Finset.mem_range] at h
    omega
  have hrest : ((Finset.range L).filter fun l =>
      (Function.update s.leaves L (some leaf) l).any p) =
      (Finset.range s.allocs).filter fun l => (s.leaves l).any p := by
    rw [← filter_range_eq s p hL fun l hl => by rw [hfresh l hl]; rfl]
    exact Finset.filter_congr fun l hl => by
      rw [Function.update_noteq (Finset.mem_range.mp hl).ne]
  rw [Function.update_same, Option.any_some]
  cases p leaf
  · simp [hrest, count]
  · simp [Finset.card_insert_of_not_mem hmem, hrest, count]

theorem count_free (p : Subleaf → Bool) {l : LeafRef} {leaf : Subleaf}
    (hl : s.leaves l = some leaf) (hleaves : s'.leaves = Function.update s.leaves l none)
    (hallocs : s.allocs ≤ s'.allocs) (hfresh : ∀ l, s.allocs ≤ l → s.leaves l = none) :
    count s' p + (if p leaf then 1 else 0) = count s p := by
  have hlt : l < s.allocs := Nat.lt_of_not_le fun h => by simp [hfresh l h] at hl
  have hfresh' : ∀ m, s.allocs ≤ m → s'.leaves m = none := fun m hm => by
    rw [hleaves, Function.update_noteq (Nat.ne_of_gt (lt_of_lt_of_le hlt hm)), hfresh m hm]
  rw [count, filter_range_eq s' p hallocs fun m hm => by rw [hfresh' m hm]; rfl, count, hleaves]
  have herase : ((Finset.range s.allocs).filter fun m =>
      (Function.update s.leaves l none m).any p) =
      ((Finset.range s.allocs).filter fun m => (s.leaves m).any p).erase l := by
    ext m
    by_cases hm : m = l
    · subst hm
      simp
    · simp [Function.update_noteq hm, hm]
  rw [herase]
  split_ifs with hp
  · exact Finset.card_erase_add_one (by simp [hlt, hl, hp])
  · rw [Finset.erase_eq_of_not_mem (by simp [hl, hp])]
    simp


/-! ## Changes the invariant does not see -/

/-- What the invariant reads of a leaf: its client and its back pointers. -/
def skeleton (leaf : Subleaf) : ClientRef × Option Addr × Option String :=
  (leaf.context, leaf.hier, leaf.shared)

theorem exists_leaf_congr {α : Type} {f : Subleaf → α} {x y : Option Subleaf}
    (h : x.map f = y.map f) (P : α → Prop) :
    (∃ leaf, x = some leaf ∧ P (f leaf)) ↔ ∃ leaf, y = some leaf ∧ P (f leaf) := by
  cases x <;> cases y <;> simp_all

theorem children_congr (h : s'.hier = s.hier) (a : Addr) : s'.children a = s.children a := by
  simp [Broker.children, h]

theorem groups_congr (h : s'.hier = s.hier) (a : Addr) : s'.groups a = s.groups a := by
  simp [Broker.groups, h]

theorem Tree.congr (hs : Tree s) (hhier : s'.hier = s.hier)
    (hsubs : ∀ x, (s'.subs x).Perm (s.subs x)) : Tree s' where
  root := hhier ▸ hs.root
  children a k := by rw [children_congr hhier, hhier]; exact hs.children a k
  childrenNodup a := by rw [children_congr hhier]; exact hs.childrenNodup a
  groupsNodup a := by rw [groups_congr hhier]; exact hs.groupsNodup a
  groups a g := by
    rw [groups_congr hhier, hs.groups, Ne, Ne, ← List.length_eq_zero, ← List.length_eq_zero,
      (hsubs _).length_eq]
  normalDead a ha := by
    have h := hsubs (.normal a)
    rwa [hs.normalDead a (hhier ▸ ha), List.perm_nil] at h

theorem Lists.congr (hs : Lists env s) (hsubs : ∀ x, (s'.subs x).Perm (s.subs x))
    (hleaves : ∀ l, (s'.leaves l).map skeleton = (s.leaves l).map skeleton)
    (hallocs : s.allocs ≤ s'.allocs) : Lists env s' := by
  have hid : leafId env s' = leafId env s := funext fun l => by
    have h := hleaves l
    cases h₁ : s'.leaves l <;> cases h₂ : s.leaves l <;>
      simp_all [leafId, skeleton]
  refine ⟨fun x l => ?_, fun x => (hsubs x).nodup_iff.mpr (hs.nodup x), fun l leaf hl => ?_,
    fun x => ?_, fun l hl => ?_⟩
  · rw [(hsubs x).mem_iff, hs.listed x l]
    exact (exists_leaf_congr (hleaves l) fun k => k.2.1.map (Host.of · k.2.2) = some x).symm
  · obtain ⟨leaf', hl', hk⟩ := (exists_leaf_congr (hleaves l) fun k => k = skeleton leaf).mp
      ⟨leaf, hl, rfl⟩
    have : leaf'.hier = leaf.hier := congrArg (·.2.1) hk
    exact this ▸ hs.hosted l leaf' hl'
  · rw [hid]
    exact (hsubs x).pairwise_iff (fun hne heq => hne heq.symm) |>.mpr (hs.ids x)
  · have h := hleaves l
    rw [hs.fresh l (le_trans hallocs hl), Option.map_none', Option.map_eq_none'] at h
    exact h

theorem Slots.congr {c : ClientRef} (hs : Slots s c) (hctx : s'.contexts c = s.contexts c)
    (hleaves : ∀ l, (∃ leaf, s'.leaves l = some leaf ∧ leaf.context = c) ↔
      ∃ leaf, s.leaves l = some leaf ∧ leaf.context = c) : Slots s' c :=
  ⟨fun l => by rw [hctx, hleaves]; exact hs.mem l, hctx ▸ hs.nodup, hctx ▸ hs.count⟩

theorem Counted.congr (hs : Counted env s) (hfresh : ∀ l, s.allocs ≤ l → s.leaves l = none)
    (hleaves : ∀ l, (s'.leaves l).map (·.shared) = (s.leaves l).map (·.shared))
    (hallocs : s.allocs ≤ s'.allocs) (hcount : s'.subscriptionCount = s.subscriptionCount)
    (hshared : s'.sharedSubscriptionCount = s.sharedSubscriptionCount) : Counted env s' := by
  have hany : ∀ (q : Option String → Bool) l,
      (s'.leaves l).any (fun leaf => q leaf.shared) = (s.leaves l).any fun leaf => q leaf.shared :=
    fun q l => by
      have h := hleaves l
      cases h₁ : s'.leaves l <;> cases h₂ : s.leaves l <;> simp_all
  intro hsys
  rw [hcount, hshared, count_congr _ (hany Option.isNone) hallocs hfresh,
    count_congr _ (hany Option.isSome) hallocs hfresh]
  exact hs hsys

theorem Inv.rot (hs : Inv env s) (h : Rot s s') : Inv env s' :=
  ⟨hs.tree.congr h.hier h.subs_perm, hs.lists.congr h.subs_perm (by simp [h.leaves]) h.allocs,
    fun c => (hs.slots c).congr (by rw [h.contexts]) (by simp [h.leaves]),
    hs.counted.congr hs.lists.fresh (by simp [h.leaves]) h.allocs h.subscriptionCount
      h.sharedSubscriptionCount⟩

theorem Inv.initial (hs : Initial s) : Inv env s := by
  have hnode : ∀ a, s.children a = [] ∧ s.groups a = [] := fun a => by
    unfold Broker.children Broker.groups
    cases ha : s.hier a with
    | none => simp
    | some n => simp [(hs.roots a n ha).2, Subhier.empty]
  refine ⟨⟨?_, fun a k => ?_, fun a => ?_, fun a => ?_, fun a g => ?_, fun a _ => hs.lists _⟩,
    ⟨fun x l => ?_, fun x => ?_, fun l leaf hl => ?_, fun x => ?_, fun l _ => hs.noLeaves l⟩,
    fun c => ⟨fun l => ?_, ?_, ?_⟩, fun _ => ?_⟩
  · cases h : s.hier [] with
    | none => rfl
    | some n => simpa using (hs.roots [] n h).1
  · rw [(hnode a).1]
    simp only [List.not_mem_nil, false_iff, not_and]
    intro hk ha
    obtain ⟨n, hn⟩ := Option.isSome_iff_exists.mp hk
    have := (hs.roots _ n hn).1
    cases a with
    | nil => exact ha rfl
    | cons _ _ => simp at this
  · simp [(hnode a).1]
  · simp [(hnode a).2]
  · simp [(hnode a).2, hs.lists]
  · simp [hs.lists, hs.noLeaves]
  · simp [hs.lists]
  · simp [hs.noLeaves] at hl
  · simp [hs.lists]
  · simp [hs.contexts, held, hs.noLeaves]
  · simp [hs.contexts, held]
  · simp [hs.contexts, held]
  · simp [count, hs.noLeaves, hs.subscriptionCount, hs.sharedSubscriptionCount]

/-! ## The trie under each kind of change -/

theorem Tree.setNormal (hs : Tree s) {a : Addr} {L : List LeafRef} (ha : (s.hier a).isSome)
    (e_hier : s'.hier = s.hier) (e_subs : s'.subs = Function.update s.subs (.normal a) L) :
    Tree s' := by
  refine ⟨e_hier ▸ hs.root, fun b k => ?_, fun b => ?_, fun b => ?_, fun b g => ?_, fun b hb => ?_⟩
  · rw [children_congr e_hier, e_hier]; exact hs.children b k
  · rw [children_congr e_hier]; exact hs.childrenNodup b
  · rw [groups_congr e_hier]; exact hs.groupsNodup b
  · rw [groups_congr e_hier, e_subs, Function.update_noteq (by simp)]; exact hs.groups b g
  · rw [e_hier] at hb
    have hba : b ≠ a := by rintro rfl; simp [hb] at ha
    rw [e_subs, Function.update_noteq (by simpa using hba)]
    exact hs.normalDead b hb

theorem Tree.setShared (hs : Tree s) {a : Addr} {g : String} {L : List LeafRef}
    {G : List String} (ha : (s.hier a).isSome) (hG : G.Nodup)
    (hmem : ∀ g', g' ∈ G ↔ if g' = g then L ≠ [] else g' ∈ s.groups a)
    (e_hier : s'.hier = Function.update s.hier a ((s.hier a).map fun n => { n with shared := G }))
    (e_subs : s'.subs = Function.update s.subs (.shared a g) L) : Tree s' := by
  obtain ⟨n, hn⟩ := Option.isSome_iff_exists.mp ha
  have hnodes : ∀ b, (s'.hier b).isSome = (s.hier b).isSome := fun b => by
    rw [e_hier, Function.update_apply]
    split_ifs with hb
    · subst hb; simp [hn]
    · rfl
  have hchildren : ∀ b, s'.children b = s.children b := fun b => by
    simp only [Broker.children, e_hier, Function.update_apply]
    split_ifs with hb
    · subst hb; simp [hn]
    · rfl
  have hgroups : ∀ b, s'.groups b = if b = a then G else s.groups b := fun b => by
    simp only [Broker.groups, e_hier, Function.update_apply]
    split_ifs with hb
    · subst hb; simp [hn]
    · rfl
  refine ⟨?_, fun b k => ?_, fun b => ?_, fun b => ?_, fun b g' => ?_, fun b hb => ?_⟩
  · simpa [hs.root] using hnodes []
  · rw [hchildren, hnodes]; exact hs.children b k
  · rw [hchildren]; exact hs.childrenNodup b
  · rw [hgroups]; split_ifs
    · exact hG
    · exact hs.groupsNodup b
  · rw [hgroups, e_subs, Function.update_apply]
    by_cases hb : b = a
    · subst hb
      by_cases hg : g' = g
      · subst hg; simp [hmem]
      · simp [hmem, hg, hs.groups]
    · simp [hb, hs.groups]
  · rw [e_subs, Function.update_noteq (by simp)]
    exact hs.normalDead b (by simpa [hb] using (hnodes b).symm)

theorem Tree.hier_child_none (hs : Tree s) {a : Addr} (ha : s.hier a = none) (ha0 : a ≠ [])
    (k : String) : s.hier (k :: a) = none := by
  by_contra h
  have := (hs.children a k).mpr ⟨Option.ne_none_iff_isSome.mp h, ha0⟩
  simp [Broker.children, ha] at this

theorem Tree.addNode (hs : Tree s) {p : Addr} {t : String} (hp : (s.hier p).isSome)
    (hb : s.hier (t :: p) = none)
    (e_hier : s'.hier = Function.update (Function.update s.hier (t :: p) (some .empty)) p
      ((s.hier p).map fun n => { n with children := n.children ++ [t] }))
    (e_subs : s'.subs = s.subs) : Tree s' := by
  have hpb : p ≠ t :: p := (List.cons_ne_self t p).symm
  have hp0 : p ≠ [] := by rintro rfl; simp [hs.root] at hp
  obtain ⟨n, hn⟩ := Option.isSome_iff_exists.mp hp
  have hnode : ∀ a, (s'.hier a).isSome = (decide (a = t :: p) || (s.hier a).isSome) :=
    fun a => by
      rw [e_hier, Function.update_apply, Function.update_apply]
      by_cases h₁ : a = p
      · subst h₁; simp [hpb, hn]
      · by_cases h₂ : a = t :: p <;> simp [h₁, h₂]
  have hchildren : ∀ a, s'.children a =
      if a = p then s.children p ++ [t] else if a = t :: p then [] else s.children a := fun a => by
    simp only [Broker.children, e_hier, Function.update_apply]
    by_cases h₁ : a = p
    · subst h₁; simp [hpb, hn]
    · by_cases h₂ : a = t :: p <;> simp [h₁, h₂, Subhier.empty]
  have hgroups : ∀ a, s'.groups a = if a = t :: p then [] else s.groups a := fun a => by
    simp only [Broker.groups, e_hier, Function.update_apply]
    by_cases h₁ : a = p
    · subst h₁; simp [hpb, hn]
    · by_cases h₂ : a = t :: p <;> simp [h₁, h₂, Subhier.empty]
  have htp : t ∉ s.children p := by simp [hs.children, hb]
  refine ⟨?_, fun a k => ?_, fun a => ?_, fun a => ?_, fun a g => ?_, fun a ha => ?_⟩
  · simpa [hs.root] using hnode []
  · rw [hchildren, hnode]
    by_cases h₁ : a = p
    · subst h₁; simp [hpb, hs.children, hp0, or_comm]
    · by_cases h₂ : a = t :: p
      · subst h₂; simp [hs.hier_child_none hb (List.cons_ne_nil t p)]
      · simp [h₁, h₂, hs.children]
  · rw [hchildren]
    split_ifs
    · exact (hs.childrenNodup p).append (List.nodup_singleton t) (by simpa using htp)
    · exact List.nodup_nil
    · exact hs.childrenNodup a
  · rw [hgroups]; split_ifs
    · exact List.nodup_nil
    · exact hs.groupsNodup a
  · rw [hgroups, e_subs]
    split_ifs with h
    · subst h; simpa [Broker.groups, hb] using (hs.groups (t :: p) g).not.mp
    · exact hs.groups a g
  · rw [e_subs]
    exact hs.normalDead a (by simpa [ha] using (hnode a).symm : _ ∧ _).2

theorem Tree.addRoot (hs : Tree s) {t : String} (hb : s.hier [t] = none)
    (e_hier : s'.hier = Function.update s.hier [t] (some .empty)) (e_subs : s'.subs = s.subs) :
    Tree s' := by
  have hnode : ∀ a, (s'.hier a).isSome = (decide (a = [t]) || (s.hier a).isSome) := fun a => by
    rw [e_hier, Function.update_apply]; by_cases h : a = [t] <;> simp [h]
  have hchildren : ∀ a, s'.children a = if a = [t] then [] else s.children a := fun a => by
    simp only [Broker.children, e_hier, Function.update_apply]
    by_cases h : a = [t] <;> simp [h, Subhier.empty]
  have hgroups : ∀ a, s'.groups a = if a = [t] then [] else s.groups a := fun a => by
    simp only [Broker.groups, e_hier, Function.update_apply]
    by_cases h : a = [t] <;> simp [h, Subhier.empty]
  refine ⟨?_, fun a k => ?_, fun a => ?_, fun a => ?_, fun a g => ?_, fun a ha => ?_⟩
  · simpa [hs.root] using hnode []
  · rw [hchildren, hnode]
    by_cases h : a = [t]
    · subst h; simp [hs.hier_child_none hb (List.cons_ne_nil t [])]
    · rw [if_neg h, hs.children]
      cases a <;> simp
  · rw [hchildren]; split_ifs
    · exact List.nodup_nil
    · exact hs.childrenNodup a
  · rw [hgroups]; split_ifs
    · exact List.nodup_nil
    · exact hs.groupsNodup a
  · rw [hgroups, e_subs]
    split_ifs with h
    · subst h; simpa [Broker.groups, hb] using (hs.groups [t] g).not.mp
    · exact hs.groups a g
  · rw [e_subs]
    exact hs.normalDead a (by simpa [ha] using (hnode a).symm : _ ∧ _).2

theorem Tree.prune (hs : Tree s) {p : Addr} {k : String} (hp0 : p ≠ [])
    (hc : s.children (k :: p) = []) (hn : s.subs (.normal (k :: p)) = [])
    (hg : s.groups (k :: p) = [])
    (e_hier : s'.hier = Function.update (Function.update s.hier p
      ((s.hier p).map fun n => { n with children := n.children.erase k })) (k :: p) none)
    (e_subs : s'.subs = s.subs) : Tree s' := by
  have hpb : p ≠ k :: p := (List.cons_ne_self k p).symm
  have hnode : ∀ a, (s'.hier a).isSome = (!decide (a = k :: p) && (s.hier a).isSome) := fun a => by
    rw [e_hier, Function.update_apply, Function.update_apply]
    by_cases h₂ : a = k :: p
    · simp [h₂]
    · by_cases h₁ : a = p
      · subst h₁; cases s.hier a <;> simp [hpb]
      · simp [h₁, h₂]
  have hchildren : ∀ a, s'.children a =
      if a = k :: p then [] else if a = p then (s.children p).erase k else s.children a :=
    fun a => by
      simp only [Broker.children, e_hier, Function.update_apply]
      by_cases h₂ : a = k :: p
      · simp [h₂]
      · by_cases h₁ : a = p
        · subst h₁; cases s.hier a <;> simp [hpb]
        · simp [h₁, h₂]
  have hgroups : ∀ a, s'.groups a = if a = k :: p then [] else s.groups a := fun a => by
    simp only [Broker.groups, e_hier, Function.update_apply]
    by_cases h₂ : a = k :: p
    · simp [h₂]
    · by_cases h₁ : a = p
      · subst h₁; cases s.hier a <;> simp [hpb]
      · simp [h₁, h₂]
  refine ⟨?_, fun a k' => ?_, fun a => ?_, fun a => ?_, fun a g => ?_, fun a ha => ?_⟩
  · simpa [hs.root] using hnode []
  · rw [hchildren, hnode]
    by_cases h₂ : a = k :: p
    · subst h₂
      have : s.hier (k' :: k :: p) = none := by
        by_contra h
        have := (hs.children (k :: p) k').mpr ⟨Option.ne_none_iff_isSome.mp h, by simp⟩
        simp [hc] at this
      simp [this]
    · by_cases h₁ : a = p
      · subst h₁
        rw [if_neg h₂, if_pos rfl, (hs.childrenNodup a).mem_erase_iff, hs.children]
        simp [hp0, and_comm]
      · simp [h₁, h₂, hs.children]
  · rw [hchildren]; split_ifs
    · exact List.nodup_nil
    · exact (hs.childrenNodup p).erase k
    · exact hs.childrenNodup a
  · rw [hgroups]; split_ifs
    · exact List.nodup_nil
    · exact hs.groupsNodup a
  · rw [hgroups, e_subs]
    split_ifs with h
    · subst h; simpa [hg] using (hs.groups (k :: p) g).not.mp
    · exact hs.groups a g
  · rw [e_subs]
    by_cases h : a = k :: p
    · subst h; exact hn
    · exact hs.normalDead a (by simpa [ha, h] using (hnode a).symm)

/-! ## The leaves under a link and an unlink -/

theorem Lists.fresh_not_mem (hs : Lists env s) {L : Nat} (hL : s.allocs ≤ L) (x : Host) :
    L ∉ s.subs x := fun hx => by
  obtain ⟨_, h₁, -⟩ := (hs.listed x _).mp hx
  simp [hs.fresh _ hL] at h₁

theorem Lists.link (hs : Lists env s) {h : Host} {L : Nat} {leaf : Subleaf}
    (hL : s.allocs ≤ L) (hhost : leaf.host = some h)
    (hnew : ∀ m ∈ s.subs h, leafId env s m ≠ (env.client leaf.context).id)
    (e_subs : s'.subs = Function.update s.subs h (s.subs h ++ [L]))
    (e_leaves : s'.leaves = Function.update s.leaves L (some leaf))
    (e_allocs : L < s'.allocs) : Lists env s' := by
  have hout := hs.fresh_not_mem hL
  have hid : ∀ m, m ≠ L → leafId env s' m = leafId env s m := fun m hm => by
    simp [leafId, e_leaves, Function.update_noteq hm]
  have hpair : ∀ x, (s.subs x).Pairwise fun l m => leafId env s' l ≠ leafId env s' m := fun x =>
    (hs.ids x).imp_of_mem fun hl hm hne => by
      rwa [hid _ (ne_of_mem_of_not_mem hl (hout x)), hid _ (ne_of_mem_of_not_mem hm (hout x))]
  refine ⟨fun x l => ?_, fun x => ?_, fun l leaf' hl => ?_, fun x => ?_, fun l hl => ?_⟩
  · rw [e_subs, e_leaves, Function.update_apply, Function.update_apply]
    by_cases hl : l = L
    · subst hl
      by_cases hx : x = h
      · subst hx; simp [hhost, -Subleaf.host_eq_some]
      · simp [hx, hout x, hhost, Ne.symm hx, -Subleaf.host_eq_some]
    · by_cases hx : x = h
      · subst hx; simp [hl, hs.listed]
      · simp [hl, hx, hs.listed]
  · rw [e_subs, Function.update_apply]
    split_ifs with hx
    · subst hx
      exact (hs.nodup x).append (List.nodup_singleton _) (by simpa using hout x)
    · exact hs.nodup x
  · rw [e_leaves, Function.update_apply] at hl
    split_ifs at hl
    · cases hl
      simpa [Subleaf.host] using congrArg Option.isSome hhost
    · exact hs.hosted l leaf' hl
  · rw [e_subs, Function.update_apply]
    split_ifs with hx
    · subst hx
      refine List.pairwise_append.mpr ⟨hpair x, List.pairwise_singleton _ _, fun m hm _ hL' => ?_⟩
      rw [List.mem_singleton.mp hL', hid _ (ne_of_mem_of_not_mem hm (hout x))]
      simpa [leafId, e_leaves] using hnew m hm
    · exact hpair x
  · rw [e_leaves, Function.update_noteq (show l ≠ L by omega)]
    exact hs.fresh l (by omega)

theorem Lists.unlink (hs : Lists env s) {h : Host} {l : LeafRef} {leaf : Subleaf}
    (hl : s.leaves l = some leaf) (hhost : leaf.host = some h)
    (e_subs : s'.subs = Function.update s.subs h ((s.subs h).erase l))
    (e_leaves : s'.leaves = Function.update s.leaves l none)
    (e_allocs : s.allocs ≤ s'.allocs) : Lists env s' := by
  have hin : ∀ x, l ∈ s.subs x ↔ x = h := fun x => by
    rw [hs.listed]; simp [hl, hhost, eq_comm]
  have hout : ∀ x m, m ∈ s'.subs x → m ≠ l := fun x m hm hml => by
    subst hml
    rw [e_subs, Function.update_apply] at hm
    split_ifs at hm with hx
    · exact (hs.nodup h).not_mem_erase hm
    · exact hx ((hin x).mp hm)
  have hsub : ∀ x, (s'.subs x).Sublist (s.subs x) := fun x => by
    rw [e_subs, Function.update_apply]
    split_ifs with hx
    · subst hx; exact List.erase_sublist l _
    · exact List.Sublist.refl _
  refine ⟨fun x m => ?_, fun x => (hs.nodup x).sublist (hsub x), fun m leaf' hm => ?_,
    fun x => ?_, fun m hm => ?_⟩
  · by_cases hml : m = l
    · subst hml
      simp only [e_leaves, Function.update_same]
      simpa using hout x m
    · rw [e_leaves, Function.update_noteq hml, ← hs.listed, e_subs, Function.update_apply]
      split_ifs with hx
      · subst hx; exact (hs.nodup x).mem_erase_iff.trans (and_iff_right hml)
      · rfl
  · rw [e_leaves, Function.update_apply] at hm
    split_ifs at hm
    exact hs.hosted m leaf' hm
  · refine ((hs.ids x).sublist (hsub x)).imp_of_mem fun hm₁ hm₂ hne => ?_
    simpa [leafId, e_leaves, Function.update_noteq (hout x _ hm₁),
      Function.update_noteq (hout x _ hm₂)] using hne
  · rw [e_leaves, Function.update_apply]
    split_ifs
    · rfl
    · exact hs.fresh m (le_trans e_allocs hm)

/-! ## The index and the counters under a link and an unlink -/

theorem Slots.free {c : ClientRef} (hs : Slots s c) {l : LeafRef} {leaf : Subleaf}
    (hl : s.leaves l = some leaf) (hc : leaf.context ≠ c)
    (e_leaves : s'.leaves = Function.update s.leaves l none)
    (e_ctx : s'.contexts c = s.contexts c) : Slots s' c :=
  hs.congr e_ctx fun m => by
    rw [e_leaves, Function.update_apply]
    split_ifs with hm
    · subst hm; simp [hl, hc]
    · rfl

theorem Slots.link (hs : ∀ c, Slots s c) {L : Nat} (hL : s.leaves L = none) {leaf : Subleaf}
    {ctx : Context} (e_leaves : s'.leaves = Function.update s.leaves L (some leaf))
    (e_ctx : s'.contexts = Function.update s.contexts leaf.context ctx)
    (hheld : (held ctx).Perm (held (s.contexts leaf.context) ++ [L]))
    (hcount : ctx.subsCount = (s.contexts leaf.context).subsCount + 1) (c : ClientRef) :
    Slots s' c := by
  by_cases hc : c = leaf.context
  · subst hc
    have hout : L ∉ held (s.contexts leaf.context) := fun h => by
      simpa [hL] using ((hs _).mem _).mp h
    have hctx : s'.contexts leaf.context = ctx := by rw [e_ctx, Function.update_same]
    refine ⟨fun m => ?_, ?_, ?_⟩ <;> rw [hctx]
    · rw [hheld.mem_iff, e_leaves, Function.update_apply]
      split_ifs with hm
      · subst hm; simp
      · simp [hm, (hs _).mem]
    · exact hheld.nodup_iff.mpr
        ((hs _).nodup.append (List.nodup_singleton _) (by simpa using hout))
    · rw [hcount, (hs _).count, hheld.length_eq]
      simp
  · refine (hs c).congr (by rw [e_ctx, Function.update_noteq hc]) fun m => ?_
    rw [e_leaves, Function.update_apply]
    split_ifs with hm
    · subst hm; simp [hL, Ne.symm hc]
    · rfl

theorem Slots.unlink (hs : ∀ c, Slots s c) {l : LeafRef} {leaf : Subleaf}
    (hl : s.leaves l = some leaf) {ctx : Context}
    (e_leaves : s'.leaves = Function.update s.leaves l none)
    (e_ctx : s'.contexts = Function.update s.contexts leaf.context ctx)
    (hheld : held ctx = (held (s.contexts leaf.context)).erase l)
    (hcount : ctx.subsCount = (s.contexts leaf.context).subsCount - 1) (c : ClientRef) :
    Slots s' c := by
  by_cases hc : c = leaf.context
  · subst hc
    have hin : l ∈ held (s.contexts leaf.context) := ((hs _).mem l).mpr ⟨leaf, hl, rfl⟩
    have hctx : s'.contexts leaf.context = ctx := by rw [e_ctx, Function.update_same]
    refine ⟨fun m => ?_, ?_, ?_⟩ <;> rw [hctx]
    · rw [hheld, (hs _).nodup.mem_erase_iff, e_leaves, Function.update_apply]
      split_ifs with hm
      · simp [hm]
      · simp [hm, (hs _).mem]
    · exact hheld ▸ (hs _).nodup.erase l
    · rw [hcount, (hs _).count, hheld, List.length_erase_of_mem hin]
      have := List.length_pos_of_mem hin
      omega
  · exact (hs c).free hl (Ne.symm hc) e_leaves (by rw [e_ctx, Function.update_noteq hc])

theorem Counted.link (hs : Counted env s) (hfresh : ∀ l, s.allocs ≤ l → s.leaves l = none)
    {L : Nat} (hL : s.allocs ≤ L) {leaf : Subleaf}
    (e_leaves : s'.leaves = Function.update s.leaves L (some leaf)) (e_allocs : L < s'.allocs)
    (e_count : env.withSysTree = true →
      s'.subscriptionCount = s.subscriptionCount + (if leaf.shared.isNone then 1 else 0) ∧
      s'.sharedSubscriptionCount = s.sharedSubscriptionCount + if leaf.shared.isSome then 1 else 0) :
    Counted env s' := fun hsys => by
  rw [count_store _ leaf hL e_leaves e_allocs hfresh, count_store _ leaf hL e_leaves e_allocs hfresh,
    (e_count hsys).1, (e_count hsys).2, (hs hsys).1, (hs hsys).2]
  constructor <;> split_ifs <;> simp

theorem Counted.unlink (hs : Counted env s) (hfresh : ∀ l, s.allocs ≤ l → s.leaves l = none)
    {l : LeafRef} {leaf : Subleaf} (hl : s.leaves l = some leaf)
    (e_leaves : s'.leaves = Function.update s.leaves l none) (e_allocs : s.allocs ≤ s'.allocs)
    (e_count : env.withSysTree = true →
      s'.subscriptionCount = s.subscriptionCount - (if leaf.shared.isNone then 1 else 0) ∧
      s'.sharedSubscriptionCount = s.sharedSubscriptionCount - if leaf.shared.isSome then 1 else 0) :
    Counted env s' := fun hsys => by
  have h₁ := count_free (fun leaf => leaf.shared.isNone) hl e_leaves e_allocs hfresh
  have h₂ := count_free (fun leaf => leaf.shared.isSome) hl e_leaves e_allocs hfresh
  rw [(e_count hsys).1, (e_count hsys).2, (hs hsys).1, (hs hsys).2, ← h₁, ← h₂]
  constructor <;> split_ifs <;> simp

/-! ## The whole invariant under each kind of change -/

theorem Inv.ofTree (hs : Inv env s) (htree : Tree s') (e_subs : s'.subs = s.subs)
    (e_leaves : s'.leaves = s.leaves) (e_ctx : s'.contexts = s.contexts)
    (e_allocs : s.allocs ≤ s'.allocs) (e_count : s'.subscriptionCount = s.subscriptionCount)
    (e_shared : s'.sharedSubscriptionCount = s.sharedSubscriptionCount) : Inv env s' :=
  ⟨htree, hs.lists.congr (by simp [e_subs]) (by simp [e_leaves]) e_allocs,
    fun c => (hs.slots c).congr (by rw [e_ctx]) (by simp [e_leaves]),
    hs.counted.congr hs.lists.fresh (by simp [e_leaves]) e_allocs e_count e_shared⟩

theorem Inv.modifyLeaf (hs : Inv env s) (m : LeafRef) (f : Subleaf → Subleaf)
    (hf : ∀ leaf, skeleton (f leaf) = skeleton leaf) : Inv env (s.modifyLeaf m f) := by
  have hsk : ∀ l, ((s.modifyLeaf m f).leaves l).map skeleton = (s.leaves l).map skeleton :=
    fun l => by
      simp only [Broker.modifyLeaf, Broker.setLeaf, Function.update_apply]
      split_ifs with h
      · subst h; cases s.leaves l <;> simp [hf]
      · rfl
  refine ⟨hs.tree.congr rfl fun _ => List.Perm.refl _, hs.lists.congr (fun _ => List.Perm.refl _)
    hsk le_rfl, fun c => (hs.slots c).congr rfl fun l => ?_,
    hs.counted.congr hs.lists.fresh (fun l => ?_) le_rfl rfl rfl⟩
  · exact exists_leaf_congr (hsk l) fun k => k.1 = c
  · have h := congrArg (Option.map fun k => k.2.2) (hsk l)
    simpa [Option.map_map] using h

/-- `t` is `s` with the leaf `leaf` stored at the fresh address `l` and appended to the list
at `h`, and its client's context replaced by `ctx`. -/
structure Linked (s t : Broker) (h : Host) (l : Nat) (leaf : Subleaf) (ctx : Context) :
    Prop where
  fresh : s.allocs ≤ l
  subs : t.subs = Function.update s.subs h (s.subs h ++ [l])
  leaves : t.leaves = Function.update s.leaves l (some leaf)
  contexts : t.contexts = Function.update s.contexts leaf.context ctx
  allocs : l < t.allocs

/-- `t` is `s` with the leaf `l` taken out of the list at `h` and freed. -/
structure Unlinked (s t : Broker) (h : Host) (l : LeafRef) : Prop where
  subs : t.subs = Function.update s.subs h ((s.subs h).erase l)
  leaves : t.leaves = Function.update s.leaves l none
  allocs : s.allocs ≤ t.allocs

theorem Inv.link (hs : Inv env s) (htree : Tree s') {h : Host} {l : Nat} {leaf : Subleaf}
    {ctx : Context} (hlink : Linked s s' h l leaf ctx) (hhost : leaf.host = some h)
    (hnew : ∀ m ∈ s.subs h, leafId env s m ≠ (env.client leaf.context).id)
    (hheld : (held ctx).Perm (held (s.contexts leaf.context) ++ [l]))
    (hcount : ctx.subsCount = (s.contexts leaf.context).subsCount + 1)
    (e_count : env.withSysTree = true →
      s'.subscriptionCount = s.subscriptionCount + (if leaf.shared.isNone then 1 else 0) ∧
      s'.sharedSubscriptionCount = s.sharedSubscriptionCount + if leaf.shared.isSome then 1 else 0) :
    Inv env s' :=
  ⟨htree, hs.lists.link hlink.fresh hhost hnew hlink.subs hlink.leaves hlink.allocs,
    Slots.link hs.slots (hs.lists.fresh _ hlink.fresh) hlink.leaves hlink.contexts hheld hcount,
    hs.counted.link hs.lists.fresh hlink.fresh hlink.leaves hlink.allocs e_count⟩

theorem Inv.unlink (hs : Inv env s) (htree : Tree s') {h : Host} {l : LeafRef} {leaf : Subleaf}
    {ctx : Context} (hunlink : Unlinked s s' h l) (hl : s.leaves l = some leaf)
    (hhost : leaf.host = some h)
    (e_ctx : s'.contexts = Function.update s.contexts leaf.context ctx)
    (hheld : held ctx = (held (s.contexts leaf.context)).erase l)
    (hcount : ctx.subsCount = (s.contexts leaf.context).subsCount - 1)
    (e_count : env.withSysTree = true →
      s'.subscriptionCount = s.subscriptionCount - (if leaf.shared.isNone then 1 else 0) ∧
      s'.sharedSubscriptionCount = s.sharedSubscriptionCount - if leaf.shared.isSome then 1 else 0) :
    Inv env s' :=
  ⟨htree, hs.lists.unlink hl hhost hunlink.subs hunlink.leaves hunlink.allocs,
    Slots.unlink hs.slots hl hunlink.leaves e_ctx hheld hcount,
    hs.counted.unlink hs.lists.fresh hl hunlink.leaves hunlink.allocs e_count⟩
end MosquittoSubs.Invariant
