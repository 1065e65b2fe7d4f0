import MosquittoSubs.Rotation

set_option autoImplicit false

/-!
# A subscription and its unsubscription

`sub__add` and then `sub__remove` of the same filter, by a client that had no leaf in the
filter's list. The subscription links a new leaf at the end of the list and records it in the
first empty slot of the client's array, or in a new last one; the unsubscription finds that
leaf, unlinks and frees it and clears its slot. The nodes the subscription made below the
filter's root then hold nothing, and `sub__remove_recurse` deletes them; it never deletes a
`db.subs` root, so a root the subscription made stays. Everything else is as it was: the
same nodes, groups and children, the same lists in the same order, the same leaves, and the
same leaves in the client's array.
-/

namespace MosquittoSubs.RoundTrip
open Model Subscribe Unsubscribe Run Frame Invariant Preservation Shape SubscribeSpec
  UnsubscribeSpec Publication Untouched Rotation

variable {env : Env} {s : Broker}

theorem tokenOk_of_shapeOk {op : Op} {rc : Int} (h : ShapeOk env op rc) : TokenOk op rc := by
  cases op with
  | subAdd c sub ts g => exact h.2.1
  | _ => trivial

/-! ## The nodes a subscription keeps -/

theorem isSome_subAddHierEntry_of {p : Option Addr} {k : String} {y : Addr}
    (hy : (s.hier y).isSome) : ((subAddHierEntry env p k s).2.hier y).isSome := by
  unfold subAddHierEntry
  split_ifs
  · cases p with
    | none =>
      simp only [Broker.setSubs, Broker.setHier, Broker.bump]
      by_cases hyk : y = [k]
      · subst hyk
        simp
      · rwa [Function.update_noteq hyk]
    | some p =>
      have hp : p ≠ k :: p := (List.cons_ne_self k p).symm
      simp only [Broker.modifyHier, Broker.setSubs, Broker.setHier, Broker.bump]
      by_cases hyp : y = p
      · subst hyp
        simp [Function.update_noteq hp, hy]
      · rw [Function.update_noteq hyp]
        by_cases hyk : y = k :: p
        · subst hyk
          simp
        · rwa [Function.update_noteq hyk]
  · exact hy

theorem isSome_addContextWalk_of (ts : List String) :
    ∀ {a : Addr} {s : Broker} {y : Addr}, (s.hier y).isSome →
      ((walkEnd (addContextWalk env a ts s)).hier y).isSome := by
  induction ts with
  | nil => exact fun h => h
  | cons k ts ih =>
    intro a s y h
    unfold addContextWalk
    split_ifs
    · exact h
    split
    · exact ih h
    · have h₁ : ((subAddHierEntry env (some a) k s).2.hier y).isSome :=
        isSome_subAddHierEntry_of h
      split
      · rename_i b s₁ heq
        rw [heq] at h₁
        exact ih h₁
      · rename_i s₁ heq
        rwa [heq] at h₁

theorem isSome_subAddContext_of (hs : Inv env s) (c : ClientRef) (sub : Subscription) {a : Addr}
    (ha : (s.hier a).isSome) (ts : List String) (g : Option String) {y : Addr}
    (hy : (s.hier y).isSome) : ((subAddContext env c sub a ts g s).2.hier y).isSome := by
  have hw : ((walkEnd (addContextWalk env a ts s)).hier y).isSome := isSome_addContextWalk_of ts hy
  have hiw := (inv_addContextWalk ts hs ha).1
  unfold subAddContext
  split
  · rename_i r heq
    rwa [heq] at hw
  · rename_i b s₁ heq
    rw [heq] at hw hiw
    split_ifs
    · cases g with
      | some g => exact (isSome_subAddShared hiw c sub b g y).mpr hw
      | none => rwa [show (subAddNormal env c sub b s₁).2.hier = s₁.hier from
          subAddNormal_hier hiw.lists c sub b]
    · exact hw

theorem isSome_subAdd_of (hs : Inv env s) (c : ClientRef) (sub : Subscription) (ts : List String)
    (g : Option String) {y : Addr} (hy : (s.hier y).isSome) :
    ((subAdd env c sub ts g s).2.hier y).isSome := by
  unfold subAdd
  split
  · exact hy
  · rename_i t0 rest
    split_ifs
    · exact hy
    split
    · rename_i n hn
      exact isSome_subAddContext_of hs c sub (by simp [hn]) _ g hy
    · rename_i hn
      obtain ⟨h₁, h₂⟩ := inv_subAddHierEntry_root hs hn
      have hy₁ : ((subAddHierEntry env none t0 s).2.hier y).isSome := isSome_subAddHierEntry_of hy
      split
      · rename_i a s₁ heq
        rw [heq] at h₁ h₂ hy₁
        obtain ⟨rfl, ha⟩ := h₂ a rfl
        exact isSome_subAddContext_of h₁ c sub ha _ g hy₁
      · rename_i s₁ heq
        rwa [heq] at hy₁

/-! ## The client's array -/

theorem erase_assignSlot {l : LeafRef} :
    ∀ {xs ys : List (Option LeafRef)}, assignSlot l xs = some ys → l ∉ xs.filterMap id →
      (ys.filterMap id).erase l = xs.filterMap id
  | [], _, h, _ => by simp [assignSlot] at h
  | none :: xs, ys, h, _ => by
    simp only [assignSlot, Option.some.injEq] at h
    subst h
    simp
  | some x :: xs, ys, h, hl => by
    simp only [assignSlot, Option.map_eq_some'] at h
    obtain ⟨zs, hz, rfl⟩ := h
    change l ∉ x :: xs.filterMap id at hl
    change (x :: zs.filterMap id).erase l = x :: xs.filterMap id
    have hx : x ≠ l := fun e => hl (e ▸ List.mem_cons_self x _)
    rw [List.erase_cons_tail (by simpa using hx),
      erase_assignSlot hz fun h => hl (List.mem_cons_of_mem x h)]

theorem erase_held_of_slot {l : LeafRef} {xs subs : List (Option LeafRef)}
    (hl : l ∉ xs.filterMap id)
    (h : assignSlot l xs = some subs ∨ assignSlot l xs = none ∧ subs = xs ++ [some l]) :
    (subs.filterMap id).erase l = xs.filterMap id := by
  rcases h with h | ⟨-, rfl⟩
  · exact erase_assignSlot h hl
  · simp [List.filterMap_append, List.erase_append_right _ hl]

/-! ## The two calls -/

theorem subAdd_links_new (hids : IdsDistinct env) (hs : Inv env s) {c : ClientRef}
    {sub : Subscription} {ts : List String} {g : Option String} (hid : (env.client c).id.isSome)
    (hnone : ∀ l ∈ s.subs (Host.of (filterNode ts) g), s.leafOf c l = false)
    (hrc : (subAdd env c sub ts g s).1 = MosqErr.success) :
    ∃ l leaf subs, s.leaves l = none ∧ leaf.context = c ∧
      (subAdd env c sub ts g s).2.leaves = Function.update s.leaves l (some leaf) ∧
      (subAdd env c sub ts g s).2.subs (Host.of (filterNode ts) g) =
        s.subs (Host.of (filterNode ts) g) ++ [l] ∧
      (∀ a, Host.normal a ≠ Host.of (filterNode ts) g →
        (subAdd env c sub ts g s).2.subs (.normal a) = s.subs (.normal a)) ∧
      (subAdd env c sub ts g s).2.contexts =
        Function.update s.contexts c ⟨subs, (s.contexts c).subsCount + 1⟩ ∧
      (held ⟨subs, 0⟩).erase l = held (s.contexts c) := by
  obtain ⟨s₁, hs₁, -, e₁, e₂, e₃, -, -, -, heq⟩ := subAdd_reaches hs hid (.inl hrc)
  rw [heq] at hrc ⊢
  rcases addAt_cases hs₁ c sub (filterNode ts) g with ⟨m, hm, -, -⟩ | ⟨hrc', -⟩ |
    ⟨-, -, t, l, subs, hslot, hlink, hrot, hsx⟩
  · -- the leaf found by id would be the client's own
    have hsid : sameId env c s₁ = sameId env c s := funext fun m => by simp only [sameId, e₂]
    rw [hsid, e₁] at hm
    obtain ⟨leaf, hleaf, hctx⟩ := context_of_sameId hids (List.find?_some hm)
    simpa [Broker.leafOf, hleaf, hctx] using hnone m (List.mem_of_find?_eq_some hm)
  · exact absurd (hrc'.symm.trans hrc) (by decide)
  · have hfresh : s.leaves l = none := e₂ ▸ hs₁.lists.fresh l hlink.fresh
    have hl : l ∉ held (s₁.contexts c) := fun h => by
      obtain ⟨_, hl, -⟩ := ((hs₁.slots c).mem l).mp h
      simp [e₂, hfresh] at hl
    refine ⟨l, ⟨c, sub.identifier, sub.options, sub.topicFilter, some (filterNode ts), g⟩,
      subs, hfresh, rfl, ?_, ?_, fun a ha => ?_, ?_, ?_⟩
    · rw [hrot.leaves, hlink.leaves, e₂]
    · rw [hsx, hlink.subs, e₁]
      simp
    · rw [hrot.normal, hlink.subs, Function.update_noteq ha, e₁]
    · rw [hrot.contexts, hlink.contexts, e₃]
    · rw [← e₃]
      exact erase_held_of_slot hl hslot

theorem subRemove_unlinks_own (hs : Inv env s) {c : ClientRef} {t0 : String}
    {rest : List String} {g : Option String} (reason : UInt8) {l : LeafRef}
    (hf : (s.subs (Host.of (filterNode (t0 :: rest)) g)).find? (s.leafOf c) = some l) :
    let u := (subRemove env c (t0 :: rest) g reason s).2.2
    let x := Host.of (filterNode (t0 :: rest)) g
    u.leaves = Function.update s.leaves l none ∧ u.subs x = (s.subs x).erase l ∧
      (∀ a, Host.normal a ≠ x → u.subs (.normal a) = s.subs (.normal a)) ∧
      ∃ subs, held ⟨subs, 0⟩ = (held (s.contexts c)).erase l ∧
        u.contexts = Function.update s.contexts c ⟨subs, (s.contexts c).subsCount - 1⟩ := by
  obtain ⟨H, hu⟩ := subRemove_eq hs.tree c (t0 :: rest) g reason
  dsimp only
  rw [hu, subRemoveRecurse_nil]
  cases g with
  | none =>
    rcases h : subRemoveNormal env c (filterNode (t0 :: rest)) mqttRcNoSubscriptionExisted s
      with ⟨rc, r', s'⟩
    rcases subRemoveNormal_cases hs h with ⟨hf', -⟩ |
      ⟨l', leaf, subs, hf', -, hctx, -, hheld, -, -, t, hun, -, hctxs, -, -, hrot⟩
    · simp [Host.of, hf'] at hf
    · obtain rfl : l' = l := by simpa [Host.of, hf'] using hf
      subst hctx
      simp only [Option.elim, h, Host.of]
      refine ⟨by rw [hrot.leaves, hun.leaves], by rw [hrot.normal, hun.subs]; simp,
        fun a ha => by rw [hrot.normal, hun.subs, Function.update_noteq ha], subs, hheld, ?_⟩
      rw [hrot.contexts, hctxs]
  | some g =>
    rcases h : subRemoveShared env c (filterNode (t0 :: rest)) mqttRcNoSubscriptionExisted g s
      with ⟨rc, r', s'⟩
    rcases subRemoveShared_cases hs h with ⟨hf', -⟩ |
      ⟨l', leaf, subs, hf', -, hctx, -, hheld, -, -, hun, -, hctxs, -, -⟩
    · simp [Host.of, hf'] at hf
    · obtain rfl : l' = l := by simpa [Host.of, hf'] using hf
      subst hctx
      simp only [Option.elim, h]
      exact ⟨hun.leaves, by rw [hun.subs]; simp [Host.of],
        fun a _ => by rw [hun.subs, Function.update_noteq (by simp)], subs, hheld, hctxs⟩

/-! ## The round trip -/

theorem subRemove_nodes_back (hs : Inv env s) (hf : Full s) {t : Broker} (ht : Inv env t)
    {c : ClientRef} {t0 : String} {rest : List String} {g : Option String} {reason : UInt8}
    (hkeep : ∀ y, (s.hier y).isSome → (t.hier y).isSome)
    (hadd : ∀ y, (t.hier y).isSome → (s.hier y).isSome ∨ y <:+ filterNode (t0 :: rest))
    (hsubs : (subRemove env c (t0 :: rest) g reason t).2.2.subs = s.subs) :
    (∀ y, (s.hier y).isSome → ((subRemove env c (t0 :: rest) g reason t).2.2.hier y).isSome) ∧
    ∀ y, ((subRemove env c (t0 :: rest) g reason t).2.2.hier y).isSome → s.hier y = none →
      y = [t0] := by
  have hu := inv_subRemove ht c (t0 :: rest) g reason
  obtain ⟨hold, hgone, hfull⟩ := subRemove_nodes ht c (t0 :: rest) g reason
  obtain ⟨H, he⟩ := subRemove_eq ht.tree c (t0 :: rest) g reason
  -- a node the unsubscription deletes held no leaf of `s`
  have hempty : ∀ y, (t.hier y).isSome → (subRemove env c (t0 :: rest) g reason t).2.2.hier y =
      none → ∀ z : Host, z.addr = y → s.subs z = [] := fun y hy hg z hz => by
    rw [← hsubs, he]
    exact emptied_subRemove ht c _ g reason hy hg z hz
  generalize (subRemove env c (t0 :: rest) g reason t).2.2 = u at *
  generalize hL : (filterNode (t0 :: rest)).length = L at hgone hfull hadd
  -- from the deepest node up: a node of `s` the call deletes had a child it deletes
  have hback : ∀ n y, L < y.length + n → (s.hier y).isSome → (u.hier y).isSome := by
    intro n
    induction n with
    | zero =>
      intro y hlt hy
      by_contra hn
      have := (hgone y (hkeep y hy) (Option.not_isSome_iff_eq_none.mp hn)).2.length_le
      omega
    | succ n ih =>
      intro y hlt hy
      by_contra hn
      have hn' := Option.not_isSome_iff_eq_none.mp hn
      obtain ⟨hlen, -⟩ := hgone y (hkeep y hy) hn'
      obtain ⟨k, hk⟩ : ∃ k, k ∈ s.children y := by
        by_contra hno
        refine hf y hy hlen ⟨hempty y (hkeep y hy) hn' (.normal y) rfl,
          List.eq_nil_iff_forall_not_mem.mpr fun g' hg' => (hs.tree.groups y g').mp hg'
            (hempty y (hkeep y hy) hn' (.shared y g') rfl),
          List.eq_nil_iff_forall_not_mem.mpr fun k hk => hno ⟨k, hk⟩⟩
      have := ih (k :: y) (by simp; omega) ((hs.tree.children y k).mp hk).1
      rw [hu.tree.hier_child_none hn' (List.ne_nil_of_length_pos (by omega)) k] at this
      exact absurd this (by simp)
  -- from the deepest node up: a node below a root the call leaves and `s` lacks has such a child
  have hnew : ∀ n y, L < y.length + n → (u.hier y).isSome → s.hier y = none → 2 ≤ y.length →
      False := by
    intro n
    induction n with
    | zero =>
      intro y hlt hy hn _
      have := ((hadd y (hold y hy)).resolve_left (by simp [hn])).length_le
      omega
    | succ n ih =>
      intro y hlt hy hn hlen
      refine hfull y hy hlen ((hadd y (hold y hy)).resolve_left (by simp [hn]))
        ⟨by rw [hsubs]; exact hs.tree.normalDead y hn,
          List.eq_nil_iff_forall_not_mem.mpr fun g' hg' => ?_,
          List.eq_nil_iff_forall_not_mem.mpr fun k hk => ?_⟩
      · have := (hs.tree.groups y g').mpr (hsubs ▸ (hu.tree.groups y g').mp hg')
        simp [Broker.groups, hn] at this
      · exact ih (k :: y) (by simp; omega) ((hu.tree.children y k).mp hk).1
          (hs.tree.hier_child_none hn (List.ne_nil_of_length_pos (by omega)) k) (by simp; omega)
  refine ⟨fun y => hback (L + 1) y (by omega), fun y hy hn => ?_⟩
  rcases y with _ | ⟨w, _ | ⟨w', y⟩⟩
  · simp [hu.tree.root] at hy
  · obtain ⟨zs, hz⟩ := (hadd _ (hold _ hy)).resolve_left (by simp [hn])
    rw [filterNode_cons, show rest.reverse ++ [t0, t0] = (rest.reverse ++ [t0]) ++ [t0] by simp]
      at hz
    exact (List.append_inj' hz rfl).2
  · exact (hnew (L + 1) _ (by omega) hy hn (by simp)).elim

theorem subAdd_subRemove_group (h : Reachable env (ShapeOk env) s) (c : ClientRef)
    (sub : Subscription) (ts : List String) (g : Option String) (reason : UInt8) {a : Addr}
    {g' : String} (hG : s.subs (.shared a g') ≠ [])
    (hm : ∀ m, m ∈ (subRemove env c ts g reason (subAdd env c sub ts g s).2).2.2.subs
      (.shared a g') ↔ m ∈ s.subs (.shared a g')) :
    (subRemove env c ts g reason (subAdd env c sub ts g s).2).2.2.subs (.shared a g') =
      s.subs (.shared a g') := by
  have hs := inv_reachable h
  have ht := inv_subAdd hs c sub ts g
  have hxz : (Host.shared a g').addr.getLast? ≠ some "$SYS" := by
    rw [Host.addr, getLast_of_group hs.lists
      (sharedRooted_reachable (h.mono fun _ _ => tokenOk_of_shapeOk)) hG]
    decide
  have k₁ := kept_subAdd hxz (fun _ => lt_allocs_of_mem hs.lists) c sub ts g
    (separate_of_lists ht.lists _)
  have k₂ := kept_subRemove hxz (fun _ => lt_allocs_of_mem ht.lists) c ts g reason
    (separate_of_lists (inv_subRemove ht c ts g reason).lists _)
  exact ((k₁.trans (fun _ => lt_allocs_of_mem hs.lists) k₂).eq_of_mem hs.lists hm).1

theorem subAdd_subRemove_lists (hids : IdsDistinct env) (h : Reachable env (ShapeOk env) s)
    (c : ClientRef) (sub : Subscription) (t0 : String) (rest : List String) (g : Option String)
    (reason : UInt8) (hid : (env.client c).id.isSome)
    (hnone : ∀ l ∈ s.subs (Host.of (filterNode (t0 :: rest)) g), s.leafOf c l = false)
    (hrc : (subAdd env c sub (t0 :: rest) g s).1 = MosqErr.success) :
    let u := (subRemove env c (t0 :: rest) g reason (subAdd env c sub (t0 :: rest) g s).2).2.2
    u.subs = s.subs ∧ u.leaves = s.leaves ∧ held (u.contexts c) = held (s.contexts c) ∧
      (u.contexts c).subsCount = (s.contexts c).subsCount ∧
      ∀ c', c' ≠ c → u.contexts c' = s.contexts c' := by
  have hs := inv_reachable h
  have ht := inv_subAdd hs c sub (t0 :: rest) g
  have hu := inv_subRemove ht c (t0 :: rest) g reason
  obtain ⟨l, leaf, subs, hfresh, hctx, hleaves, hx, hnormal, hctxs, hheld⟩ :=
    subAdd_links_new hids hs hid hnone hrc
  have hout : ∀ y, l ∉ s.subs y := fun y hl => by
    obtain ⟨_, hl, -⟩ := (hs.lists.listed y l).mp hl
    simp [hfresh] at hl
  -- the unsubscription finds the new leaf
  have hf : ((subAdd env c sub (t0 :: rest) g s).2.subs (Host.of (filterNode (t0 :: rest)) g)).find?
      ((subAdd env c sub (t0 :: rest) g s).2.leafOf c) = some l := by
    rw [hx, List.find?_append, List.find?_eq_none.mpr fun m hm => ?_]
    · simp [Broker.leafOf, hleaves, hctx]
    · have hml : m ≠ l := fun e => hout _ (e ▸ hm)
      simpa [Broker.leafOf, hleaves, Function.update_noteq hml] using hnone m hm
  obtain ⟨hleaves', hx', hnormal', subs', hheld', hctxs'⟩ := subRemove_unlinks_own ht reason hf
  have hgroup := fun a g' (hG : s.subs (.shared a g') ≠ []) =>
    subAdd_subRemove_group h c sub (t0 :: rest) g reason hG
  dsimp only at hu hleaves' hx' hnormal' hctxs' ⊢
  generalize (subRemove env c (t0 :: rest) g reason (subAdd env c sub (t0 :: rest) g s).2).2.2 = u
    at hu hleaves' hx' hnormal' hctxs' hgroup ⊢
  have hL : u.leaves = s.leaves := by
    rw [hleaves', hleaves, Function.update_idem]
    exact Function.update_eq_self_iff.mpr hfresh.symm
  have hmem : ∀ z m, m ∈ u.subs z ↔ m ∈ s.subs z := fun z m => by
    rw [hu.lists.listed, hs.lists.listed, hL]
  have hsubs : u.subs = s.subs := by
    funext z
    by_cases hz : z = Host.of (filterNode (t0 :: rest)) g
    · subst hz
      rw [hx', hx, List.erase_append_right _ (hout _)]
      simp
    cases z with
    | normal a => rw [hnormal' a hz, hnormal a hz]
    | shared a g' =>
      by_cases hG : s.subs (.shared a g') = []
      · rw [hG]
        exact List.eq_nil_iff_forall_not_mem.mpr fun m hm => by simpa [hG] using (hmem _ m).mp hm
      · exact hgroup a g' hG (hmem _)
  refine ⟨hsubs, hL, ?_, ?_, fun c' hc' => ?_⟩
  · calc held (u.contexts c) = held ⟨subs', 0⟩ := by rw [hctxs', Function.update_same]; rfl
      _ = (held ((subAdd env c sub (t0 :: rest) g s).2.contexts c)).erase l := hheld'
      _ = held (s.contexts c) := by rw [hctxs, Function.update_same]; exact hheld
  · rw [hctxs', Function.update_same, hctxs, Function.update_same]
    simp
  · rw [hctxs', Function.update_noteq hc', hctxs, Function.update_noteq hc']

/-- In a state reached by successful subscriptions to filters as the tokenizer gives them,
a subscription that succeeds, by a client with an id and no leaf in the filter's list,
followed by the unsubscription from the same filter, gives back every node but the
`db.subs` root of the filter's first level, which is there afterwards whether or not it was
before; the children and groups of every node; every list, in its order; every leaf; and the
client's array, with the same leaves in the same order and the same count. -/
theorem subAdd_subRemove_restores (hids : IdsDistinct env) (h : Reachable env (ShapeOk env) s)
    (c : ClientRef) (sub : Subscription) (t0 : String) (rest : List String) (g : Option String)
    (reason : UInt8) (hid : (env.client c).id.isSome)
    (hnone : ∀ l ∈ s.subs (Host.of (filterNode (t0 :: rest)) g), s.leafOf c l = false)
    (hrc : (subAdd env c sub (t0 :: rest) g s).1 = MosqErr.success) :
    let u := (subRemove env c (t0 :: rest) g reason (subAdd env c sub (t0 :: rest) g s).2).2.2
    (∀ y, y ≠ [t0] → ((u.hier y).isSome ↔ (s.hier y).isSome)) ∧ (u.hier [t0]).isSome ∧
    (∀ y, (u.children y).Perm (s.children y) ∧ (u.groups y).Perm (s.groups y)) ∧
    u.subs = s.subs ∧ u.leaves = s.leaves ∧ held (u.contexts c) = held (s.contexts c) ∧
    (u.contexts c).subsCount = (s.contexts c).subsCount ∧
    ∀ c', c' ≠ c → u.contexts c' = s.contexts c' := by
  have hs := inv_reachable h
  have ht := inv_subAdd hs c sub (t0 :: rest) g
  have hu := inv_subRemove ht c (t0 :: rest) g reason
  obtain ⟨hsubs, hrest⟩ := subAdd_subRemove_lists hids h c sub t0 rest g reason hid hnone hrc
  obtain ⟨hback, hnew⟩ := subRemove_nodes_back hs (full_reachable h) ht
    (fun _ => isSome_subAdd_of hs c sub _ g) (fun _ => isSome_subAdd hs c sub _ g) hsubs
  -- the subscription's leaf is below the root `t0`, which no unsubscription deletes
  have hroot : ((subAdd env c sub (t0 :: rest) g s).2.hier [t0]).isSome := by
    obtain ⟨l, hl⟩ := List.exists_mem_of_ne_nil _ (subs_subAdd_ne_nil hs hid (.inl hrc))
    have hnode := isSome_hier_of_mem ht.tree hl
    rw [Host.of_addr] at hnode
    exact hier_of_append ht.tree (t0 :: rest).reverse (List.cons_ne_nil t0 []) hnode
  have hkept : ((subRemove env c (t0 :: rest) g reason
      (subAdd env c sub (t0 :: rest) g s).2).2.2.hier [t0]).isSome := by
    by_contra hgone
    have := (subRemove_nodes ht c (t0 :: rest) g reason).2.1 [t0] hroot (by simpa using hgone)
    exact absurd this.1 (by simp)
  dsimp only at hu hsubs hback hnew hkept ⊢
  generalize (subRemove env c (t0 :: rest) g reason (subAdd env c sub (t0 :: rest) g s).2).2.2 = u
    at hu hsubs hrest hback hnew hkept ⊢
  have hnodes : ∀ y, y ≠ [t0] → ((u.hier y).isSome ↔ (s.hier y).isSome) := fun y hy =>
    ⟨fun h => by_contra fun hn => hy (hnew y h (Option.not_isSome_iff_eq_none.mp hn)), hback y⟩
  refine ⟨hnodes, hkept, fun y => ⟨?_, ?_⟩, hsubs, hrest⟩
  · refine (List.perm_ext_iff_of_nodup (hu.tree.childrenNodup y) (hs.tree.childrenNodup y)).mpr
      fun k => ?_
    rw [hu.tree.children, hs.tree.children]
    by_cases hy : y = []
    · simp [hy]
    · rw [hnodes _ (by simp [hy])]
  · refine (List.perm_ext_iff_of_nodup (hu.tree.groupsNodup y) (hs.tree.groupsNodup y)).mpr
      fun g' => ?_
    rw [hu.tree.groups, hs.tree.groups, hsubs]

theorem subAdd_subRemove_restores_after_open :
    let s := ((Op.subAdd 2 ⟨"a", 0, 0⟩ ["", "a"] none).run (plainEnv false) openedBroker).2
    let u := (subRemove (plainEnv false) 1 ["", "a"] none 0
      (subAdd (plainEnv false) 1 ⟨"a", 0, 0⟩ ["", "a"] none s).2).2.2
    (∀ y, y ≠ [""] → ((u.hier y).isSome ↔ (s.hier y).isSome)) ∧ (u.hier [""]).isSome ∧
    (∀ y, (u.children y).Perm (s.children y) ∧ (u.groups y).Perm (s.groups y)) ∧
    u.subs = s.subs ∧ u.leaves = s.leaves ∧ held (u.contexts 1) = held (s.contexts 1) ∧
    (u.contexts 1).subsCount = (s.contexts 1).subsCount ∧
    ∀ c', c' ≠ 1 → u.contexts c' = s.contexts c' :=
  subAdd_subRemove_restores (idsDistinct_plainEnv false)
    (.step (.subAdd 2 ⟨"a", 0, 0⟩ ["", "a"] none) (.init initial_openedBroker)
      ⟨by decide, by decide, .inl (by decide)⟩)
    1 ⟨"a", 0, 0⟩ "" ["a"] none 0 (by decide) (by decide) (by decide)

/-- From the state `db__open` leaves, which has the roots `""` and `"$SYS"`, a subscription of
client 1 to `$x` makes the root `$x`, and its unsubscription keeps it. -/
theorem subAdd_subRemove_keeps_new_root :
    let t := subAdd (plainEnv false) 1 ⟨"$x", 0, 0⟩ ["$x"] none openedBroker
    let u := (subRemove (plainEnv false) 1 ["$x"] none 0 t.2).2.2
    t.1 = MosqErr.success ∧ openedBroker.hier ["$x"] = none ∧ (u.hier ["$x"]).isSome :=
  ⟨by decide, rfl, by decide⟩

end MosquittoSubs.RoundTrip
