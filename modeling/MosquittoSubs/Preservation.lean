import MosquittoSubs.Invariant

set_option autoImplicit false

/-!
# Every operation keeps the invariant

One lemma per function of `subs.c`, each citing the inversion lemmas of the functions it
calls, and then the invariant over every run. A failed allocation in the middle of
`sub__add_normal` or `sub__add_shared` undoes what the call did, so the state it leaves is
the one it started from, up to the allocations made.
-/

namespace MosquittoSubs.Preservation
open Model Publish SysTree Subscribe Unsubscribe Clean Run Frame Invariant

variable {env : Env} {s s' : Broker}

theorem Rot.of_eq (hhier : s'.hier = s.hier) (hsubs : s'.subs = s.subs)
    (hleaves : s'.leaves = s.leaves) (hctx : s'.contexts = s.contexts)
    (hcount : s'.subscriptionCount = s.subscriptionCount)
    (hshared : s'.sharedSubscriptionCount = s.sharedSubscriptionCount)
    (hallocs : s.allocs ≤ s'.allocs) (hpersist : s'.persistDeleted = s.persistDeleted) :
    Rot s s' :=
  ⟨hhier, fun a => by rw [hsubs], fun a g => by rw [hsubs], hleaves, hctx, hcount, hshared,
    hallocs, hpersist⟩

/-! ## Subscribing -/

theorem inv_subAddHierEntry (hs : Inv env s) {p : Addr} {t : String} (hp : (s.hier p).isSome)
    (hb : s.hier (t :: p) = none) :
    Inv env (subAddHierEntry env (some p) t s).2 ∧ ∀ b, (subAddHierEntry env (some p) t s).1 = some b →
      b = t :: p ∧ ((subAddHierEntry env (some p) t s).2.hier b).isSome := by
  have hpb : p ≠ t :: p := (List.cons_ne_self t p).symm
  have hsubs : Function.update s.subs (.normal (t :: p)) [] = s.subs := by
    simp [hs.tree.normalDead _ hb]
  unfold subAddHierEntry
  split_ifs with hok
  · refine ⟨hs.ofTree (hs.tree.addNode hp hb ?_ ?_) ?_ rfl rfl (by simp) rfl rfl, ?_⟩
    · simp [Function.update_noteq hpb]
    · simpa using hsubs
    · simpa using hsubs
    · rintro b ⟨⟩
      simp [Function.update_noteq hpb.symm]
  · exact ⟨hs.rot (Rot.bump s), by simp⟩

theorem inv_subAddHierEntry_root (hs : Inv env s) {t : String} (hb : s.hier [t] = none) :
    Inv env (subAddHierEntry env none t s).2 ∧ ∀ b, (subAddHierEntry env none t s).1 = some b →
      b = [t] ∧ ((subAddHierEntry env none t s).2.hier b).isSome := by
  have hsubs : Function.update s.subs (.normal [t]) [] = s.subs := by
    simp [hs.tree.normalDead _ hb]
  unfold subAddHierEntry
  split_ifs with hok
  · refine ⟨hs.ofTree (hs.tree.addRoot hb (by simp) (by simpa using hsubs)) (by simpa using hsubs)
      rfl rfl (by simp) rfl rfl, ?_⟩
    rintro b ⟨⟩
    simp
  · exact ⟨hs.rot (Rot.bump s), by simp⟩

/-- The state a walk down the trie ends in, whether it reached its node or failed. -/
def walkEnd : Except (Int × Broker) (Addr × Broker) → Broker
  | .ok (_, s) => s
  | .error (_, s) => s

theorem inv_addContextWalk (ts : List String) :
    ∀ {a : Addr} {s : Broker}, Inv env s → (s.hier a).isSome →
      Inv env (walkEnd (addContextWalk env a ts s)) ∧
        ∀ b s', addContextWalk env a ts s = .ok (b, s') → (s'.hier b).isSome := by
  induction ts with
  | nil =>
    intro a s hs ha
    refine ⟨hs, ?_⟩
    rintro b s' ⟨⟩
    exact ha
  | cons t ts ih =>
    intro a s hs ha
    unfold addContextWalk
    split_ifs with hlen
    · exact ⟨hs, by simp⟩
    · split
      · rename_i n hn
        exact ih hs (by simp [hn])
      · rename_i hn
        obtain ⟨h₁, h₂⟩ := inv_subAddHierEntry hs ha hn
        split
        · rename_i b s₁ heq
          rw [heq] at h₁ h₂
          obtain ⟨rfl, hb⟩ := h₂ b rfl
          exact ih h₁ hb
        · rename_i s₁ heq
          rw [heq] at h₁
          exact ⟨h₁, by simp⟩

theorem fail_ne_ok {rc : Int} (hrc : rc = MosqErr.success ∨ rc = MosqErr.subExists) :
    rc ≠ MosqErr.nomem ∧ rc ≠ MosqErr.inval := by
  rcases hrc with rfl | rfl <;> decide

theorem addContextWalk_error (ts : List String) :
    ∀ {a : Addr} {s t : Broker} {rc : Int}, addContextWalk env a ts s = .error (rc, t) →
      rc = MosqErr.inval ∨ rc = MosqErr.nomem := by
  induction ts with
  | nil => rintro a s t rc ⟨⟩
  | cons u ts ih =>
    intro a s t rc h
    unfold addContextWalk at h
    split_ifs at h
    · cases h; exact .inl rfl
    split at h
    · exact ih h
    · split at h
      · exact ih h
      · cases h; exact .inr rfl

theorem subAddLeaf_cases {c : ClientRef} {sub : Subscription} {x : Host} {r : LeafAdded}
    (h : subAddLeaf env c sub x s = (r, s')) :
    (∃ m, (s.subs x).find? (sameId env c s) = some m ∧ r = .subExists ∧
      s' = s.modifyLeaf m fun leaf =>
        { leaf with identifier := sub.identifier, subscriptionOptions := sub.options }) ∨
    ((s.subs x).find? (sameId env c s) = none ∧ env.allocOk s.allocs = false ∧ r = .nomem ∧
      s' = s.bump) ∨
    ((s.subs x).find? (sameId env c s) = none ∧ env.allocOk s.allocs = true ∧
      r = .added s.allocs ∧ s' = (s.bump.setLeaf s.allocs (some ⟨c, sub.identifier, sub.options,
        sub.topicFilter, none, none⟩)).setSubs x (s.subs x ++ [s.allocs])) := by
  unfold subAddLeaf at h
  split at h
  · rename_i m hm
    cases h
    exact .inl ⟨m, hm, rfl, rfl⟩
  · rename_i hm
    split_ifs at h with hok
    · cases h
      exact .inr (.inr ⟨hm, hok, rfl, by simp⟩)
    · cases h
      exact .inr (.inl ⟨hm, by simpa using hok, rfl, rfl⟩)

theorem addToIndex_cases {c : ClientRef} {l : LeafRef} {ok : Bool}
    (h : addToIndex env c l s = (ok, s')) :
    (ok = true ∧ ∃ subs, (assignSlot l (s.contexts c).subs = some subs ∨
        assignSlot l (s.contexts c).subs = none ∧ env.allocOk s.allocs = true ∧
          subs = (s.contexts c).subs ++ [some l]) ∧
      ∃ k, s' = { s with allocs := s.allocs + k }.setContext c
        ⟨subs, (s.contexts c).subsCount + 1⟩) ∨
    (ok = false ∧ assignSlot l (s.contexts c).subs = none ∧ env.allocOk s.allocs = false ∧
      s' = s.bump) := by
  cases hsubs : assignSlot l (s.contexts c).subs with
  | some subs =>
    simp only [addToIndex, hsubs, Prod.mk.injEq] at h
    obtain ⟨rfl, rfl⟩ := h
    exact .inl ⟨rfl, subs, .inl rfl, 0, rfl⟩
  | none =>
    simp only [addToIndex, hsubs] at h
    split_ifs at h with hok
    · cases h
      exact .inl ⟨rfl, _, .inr ⟨rfl, hok, rfl⟩, 1, rfl⟩
    · cases h
      exact .inr ⟨rfl, rfl, by simpa using hok, rfl⟩

theorem held_of_addToIndex {l : LeafRef} {xs subs : List (Option LeafRef)}
    (h : assignSlot l xs = some subs ∨ assignSlot l xs = none ∧ subs = xs ++ [some l])
    (cnt : Int) : (held ⟨subs, cnt⟩).Perm (xs.filterMap id ++ [l]) := by
  rcases h with h | ⟨-, rfl⟩
  · exact assignSlot_filterMap h
  · simp [held]

theorem leafId_ne_of_find {c : ClientRef} {x : Host} (hid : (env.client c).id.isSome)
    (hf : (s.subs x).find? (sameId env c s) = none) :
    ∀ m ∈ s.subs x, leafId env s m ≠ (env.client c).id := fun m hm heq => by
  have hne := List.find?_eq_none.mp hf m hm
  obtain ⟨x, hx⟩ := Option.isSome_iff_exists.mp hid
  rw [hx] at heq
  unfold leafId at heq
  unfold sameId at hne
  cases hl : s.leaves m with
  | none => simp [hl] at heq
  | some leaf => simp_all

theorem subAddNormal_cases (hs : Lists env s) {c : ClientRef} {sub : Subscription} {a : Addr}
    {rc : Int} (h : subAddNormal env c sub a s = (rc, s')) :
    (∃ m, (s.subs (.normal a)).find? (sameId env c s) = some m ∧
      rc = protocolRc env c MosqErr.subExists ∧ s' = s.modifyLeaf m fun leaf =>
        { leaf with identifier := sub.identifier, subscriptionOptions := sub.options }) ∨
    (rc = MosqErr.nomem ∧ Rot s s') ∨
    ((s.subs (.normal a)).find? (sameId env c s) = none ∧ rc = protocolRc env c MosqErr.success ∧
      ∃ t subs, (assignSlot s.allocs (s.contexts c).subs = some subs ∨
          assignSlot s.allocs (s.contexts c).subs = none ∧
            subs = (s.contexts c).subs ++ [some s.allocs]) ∧
        Linked s t (.normal a) s.allocs ⟨c, sub.identifier, sub.options, sub.topicFilter, some a, none⟩
          ⟨subs, (s.contexts c).subsCount + 1⟩ ∧
        t.hier = s.hier ∧
        t.subscriptionCount = s.subscriptionCount + (if env.withSysTree then 1 else 0) ∧
        t.sharedSubscriptionCount = s.sharedSubscriptionCount ∧ Rot t s') := by
  unfold subAddNormal at h
  rcases hleaf : subAddLeaf env c sub (.normal a) s with ⟨r, s₁⟩
  rw [hleaf] at h
  rcases subAddLeaf_cases hleaf with ⟨m, hm, rfl, rfl⟩ | ⟨-, -, rfl, rfl⟩ | ⟨hf, -, rfl, rfl⟩
  · cases h
    exact .inl ⟨m, hm, rfl, rfl⟩
  · cases h
    exact .inr (.inl ⟨rfl, Rot.bump s⟩)
  · dsimp only at h
    split at h
    · rename_i s₂ heq
      rcases addToIndex_cases heq with ⟨⟨⟩, -⟩ | ⟨-, -, -, rfl⟩
      cases h
      refine .inr (.inl ⟨rfl, Rot.of_eq (by simp) ?_ ?_ (by simp) rfl rfl (by simp; omega) rfl⟩)
      · simp [List.erase_append_right _ (hs.fresh_not_mem le_rfl _)]
      · simp [hs.fresh _ le_rfl]
    · rename_i s₂ heq
      rcases addToIndex_cases heq with ⟨-, subs, hsubs, k, rfl⟩ | ⟨⟨⟩, -⟩
      cases h
      have hslot : assignSlot s.allocs (s.contexts c).subs = some subs ∨
          assignSlot s.allocs (s.contexts c).subs = none ∧
            subs = (s.contexts c).subs ++ [some s.allocs] :=
        hsubs.imp (by simpa using ·) fun ⟨h₁, _, h₂⟩ => ⟨by simpa using h₁, by simpa using h₂⟩
      by_cases hsys : env.withSysTree = true
      · rw [if_pos hsys]
        refine .inr (.inr ⟨hf, rfl, _, subs, hslot, ⟨le_rfl, ?_, ?_, ?_, ?_⟩, ?_, ?_, ?_,
          subUpdateSubscribedTopics_rot env a _⟩) <;> simp [hsys]
        omega
      · rw [if_neg hsys]
        refine .inr (.inr ⟨hf, rfl, _, subs, hslot, ⟨le_rfl, ?_, ?_, ?_, ?_⟩, ?_, ?_, ?_, Rot.refl _⟩) <;>
          simp [hsys]
        omega

theorem inv_subAddNormal (hs : Inv env s) {c : ClientRef} (sub : Subscription) {a : Addr}
    (ha : (s.hier a).isSome) (hid : (env.client c).id.isSome) :
    Inv env (subAddNormal env c sub a s).2 := by
  rcases h : subAddNormal env c sub a s with ⟨rc, s'⟩
  rcases subAddNormal_cases hs.lists h with ⟨m, -, -, rfl⟩ | ⟨-, hrot⟩ |
    ⟨hf, -, t, subs, hslot, hlink, hhier, hc₁, hc₂, hrot⟩
  · exact hs.modifyLeaf m _ fun _ => rfl
  · exact hs.rot hrot
  · refine (hs.link (hs.tree.setNormal ha hhier hlink.subs) hlink rfl (leafId_ne_of_find hid hf)
      (held_of_addToIndex hslot _) rfl fun hsys => ?_).rot hrot
    simp [hc₁, hc₂, hsys]

theorem findOrAddShared_cases {a : Addr} {g : String} {ok : Bool}
    (h : findOrAddShared env a g s = (ok, s')) :
    (ok = true ∧ g ∈ s.groups a ∧ s' = s) ∨
    (ok = true ∧ g ∉ s.groups a ∧ s' = (s.bump.modifyHier a fun n =>
      { n with shared := n.shared ++ [g] }).setSubs (.shared a g) []) ∨
    (ok = false ∧ s' = s.bump) := by
  unfold findOrAddShared at h
  split_ifs at h with hg hok
  · cases h; exact .inl ⟨rfl, hg, rfl⟩
  · cases h; exact .inr (.inl ⟨rfl, hg, rfl⟩)
  · cases h; exact .inr (.inr ⟨rfl, rfl⟩)

theorem map_shared_groups (a : Addr) (F : List String → List String) :
    (s.hier a).map (fun n => { n with shared := F n.shared }) =
      (s.hier a).map fun n => { n with shared := F (s.groups a) } := by
  cases h : s.hier a <;> simp [Broker.groups, h]

/-- Setting a node's `shared` hash to its own groups changes nothing. -/
@[simp] theorem map_shared_self (a : Addr) :
    (s.hier a).map (fun n => { n with shared := s.groups a }) = s.hier a := by
  cases h : s.hier a <;> simp [Broker.groups, h]

theorem map_shared_append_erase {a : Addr} {g : String} (hg : g ∉ s.groups a) :
    (s.hier a).map (((fun n => { n with shared := n.shared.erase g }) ∘
      fun n => { n with shared := n.shared ++ [g] }) : Subhier → Subhier) = s.hier a := by
  cases h : s.hier a with
  | none => rfl
  | some n =>
    simp only [Broker.groups, h, Option.map_some', Option.getD_some] at hg
    simp [List.erase_append_right _ hg]

theorem subAddShared_cases (hs : Inv env s) {c : ClientRef} {sub : Subscription} {a : Addr}
    {g : String} {rc : Int} (h : subAddShared env c sub a g s = (rc, s')) :
    (∃ m, (s.subs (.shared a g)).find? (sameId env c s) = some m ∧
      rc = protocolRc env c MosqErr.subExists ∧ s' = s.modifyLeaf m fun leaf =>
        { leaf with identifier := sub.identifier, subscriptionOptions := sub.options }) ∨
    (rc = MosqErr.nomem ∧ Rot s s') ∨
    ((s.subs (.shared a g)).find? (sameId env c s) = none ∧ rc = protocolRc env c MosqErr.success ∧
      ∃ l subs, (assignSlot l (s.contexts c).subs = some subs ∨
          assignSlot l (s.contexts c).subs = none ∧ subs = (s.contexts c).subs ++ [some l]) ∧
        Linked s s' (.shared a g) l ⟨c, sub.identifier, sub.options, sub.topicFilter, some a, some g⟩
          ⟨subs, (s.contexts c).subsCount + 1⟩ ∧
        s'.hier = Function.update s.hier a ((s.hier a).map fun n =>
          { n with shared := if g ∈ s.groups a then s.groups a else s.groups a ++ [g] }) ∧
        s'.subscriptionCount = s.subscriptionCount ∧
        s'.sharedSubscriptionCount =
          s.sharedSubscriptionCount + (if env.withSysTree then 1 else 0)) := by
  unfold subAddShared at h
  rcases hfind : findOrAddShared env a g s with ⟨ok, s₁⟩
  rw [hfind] at h
  rcases findOrAddShared_cases hfind with ⟨rfl, hg, rfl⟩ | ⟨rfl, hg, hs₁⟩ | ⟨rfl, rfl⟩
  · -- the group exists
    have hne := (hs.tree.groups a g).mp hg
    dsimp only at h
    rcases hleaf : subAddLeaf env c sub (.shared a g) s₁ with ⟨r, s₂⟩
    rw [hleaf] at h
    rcases subAddLeaf_cases hleaf with ⟨m, hm, rfl, rfl⟩ | ⟨-, -, rfl, rfl⟩ | ⟨hf, -, rfl, rfl⟩
    · cases h
      exact .inl ⟨m, hm, rfl, rfl⟩
    · cases h
      exact .inr (.inl ⟨rfl, by simpa [hne] using Rot.bump s₁⟩)
    · dsimp only at h
      split at h
      · rename_i s₃ heq
        rcases addToIndex_cases heq with ⟨⟨⟩, -⟩ | ⟨-, -, -, rfl⟩
        cases h
        have hout := hs.lists.fresh_not_mem le_rfl (.shared a g)
        refine .inr (.inl ⟨rfl, Rot.of_eq ?_ ?_ ?_ ?_ ?_ ?_ ?_ ?_⟩) <;>
          simp [subRemoveSharedLeaf, List.erase_append_right _ hout, hne, hs.lists.fresh _ le_rfl]
        omega
      · rename_i s₃ heq
        rcases addToIndex_cases heq with ⟨-, subs, hsubs, k, rfl⟩ | ⟨⟨⟩, -⟩
        have hslot : assignSlot s₁.allocs (s₁.contexts c).subs = some subs ∨
            assignSlot s₁.allocs (s₁.contexts c).subs = none ∧
              subs = (s₁.contexts c).subs ++ [some s₁.allocs] :=
          hsubs.imp (by simpa using ·) fun ⟨h₁, _, h₂⟩ => ⟨by simpa using h₁, by simpa using h₂⟩
        split_ifs at h with hsys <;> cases h <;>
          refine .inr (.inr ⟨hf, rfl, s₁.allocs, subs, hslot, ⟨le_rfl, ?_, ?_, ?_, ?_⟩, ?_, ?_, ?_⟩) <;>
          simp [hg, hsys] <;> omega
  · -- the group is made, with no members
    have hempty : s.subs (.shared a g) = [] := by simpa using (hs.tree.groups a g).not.mp hg
    dsimp only at h
    rcases hleaf : subAddLeaf env c sub (.shared a g) s₁ with ⟨r, s₂⟩
    rw [hleaf] at h
    rcases subAddLeaf_cases hleaf with ⟨m, hm, rfl, rfl⟩ | ⟨-, -, rfl, rfl⟩ | ⟨hf, -, rfl, rfl⟩
    · simp [hs₁] at hm
    · cases h
      refine .inr (.inl ⟨rfl, Rot.of_eq ?_ ?_ ?_ ?_ ?_ ?_ ?_ ?_⟩) <;>
        simp [hs₁, deleteShared, hempty, map_shared_append_erase hg]
      omega
    · dsimp only at h
      split at h
      · rename_i s₃ heq
        rcases addToIndex_cases heq with ⟨⟨⟩, -⟩ | ⟨-, -, -, rfl⟩
        cases h
        refine .inr (.inl ⟨rfl, Rot.of_eq ?_ ?_ ?_ ?_ ?_ ?_ ?_ ?_⟩) <;>
          simp [hs₁, subRemoveSharedLeaf, deleteShared, hempty, map_shared_append_erase hg,
            hs.lists.fresh _ (Nat.le_succ _)]
        omega
      · rename_i s₃ heq
        rcases addToIndex_cases heq with ⟨-, subs, hsubs, k, rfl⟩ | ⟨⟨⟩, -⟩
        have hslot : assignSlot s₁.allocs (s.contexts c).subs = some subs ∨
            assignSlot s₁.allocs (s.contexts c).subs = none ∧
              subs = (s.contexts c).subs ++ [some s₁.allocs] :=
          hsubs.imp (by simpa [hs₁] using ·) fun ⟨h₁, _, h₂⟩ =>
            ⟨by simpa [hs₁] using h₁, by simpa [hs₁] using h₂⟩
        split_ifs at h with hsys <;> cases h <;>
          refine .inr (.inr ⟨by simp [hempty], rfl, s₁.allocs, subs, hslot,
            ⟨by simp [hs₁], ?_, ?_, ?_, ?_⟩, ?_, ?_, ?_⟩) <;>
          simp [hs₁, hg, hsys, hempty, map_shared_groups a (· ++ [g])] <;> omega
  · cases h
    exact .inr (.inl ⟨rfl, Rot.bump s⟩)

theorem inv_subAddShared (hs : Inv env s) {c : ClientRef} (sub : Subscription) {a : Addr}
    (g : String) (ha : (s.hier a).isSome) (hid : (env.client c).id.isSome) :
    Inv env (subAddShared env c sub a g s).2 := by
  rcases h : subAddShared env c sub a g s with ⟨rc, s'⟩
  rcases subAddShared_cases hs h with ⟨m, -, -, rfl⟩ | ⟨-, hrot⟩ |
    ⟨hf, -, l, subs, hslot, hlink, hhier, hc₁, hc₂⟩
  · exact hs.modifyLeaf m _ fun _ => rfl
  · exact hs.rot hrot
  · have hG : (if g ∈ s.groups a then s.groups a else s.groups a ++ [g]).Nodup := by
      split_ifs with hg
      · exact hs.tree.groupsNodup a
      · exact (hs.tree.groupsNodup a).append (List.nodup_singleton g) (by simpa using hg)
    have hmem : ∀ g', g' ∈ (if g ∈ s.groups a then s.groups a else s.groups a ++ [g]) ↔
        if g' = g then s.subs (.shared a g) ++ [l] ≠ [] else g' ∈ s.groups a := fun g' => by
      by_cases hg' : g' = g
      · subst hg'; split_ifs <;> simp_all
      · split_ifs <;> simp [hg']
    exact hs.link (hs.tree.setShared ha hG hmem hhier hlink.subs) hlink rfl
      (leafId_ne_of_find hid hf) (held_of_addToIndex hslot _) rfl fun hsys => by
        simp [hc₁, hc₂, hsys]

theorem inv_subAddContext (hs : Inv env s) (c : ClientRef) (sub : Subscription) {a : Addr}
    (ha : (s.hier a).isSome) (ts : List String) (sharename : Option String) :
    Inv env (subAddContext env c sub a ts sharename s).2 := by
  obtain ⟨hw, hb⟩ := inv_addContextWalk ts hs ha
  unfold subAddContext
  split
  · rename_i r heq
    rw [heq] at hw
    exact hw
  · rename_i b s₁ heq
    rw [heq] at hw
    have hb := hb b s₁ heq
    split_ifs with hid
    · cases sharename with
      | some g => exact inv_subAddShared hw sub g hb hid
      | none => exact inv_subAddNormal hw sub hb hid
    · exact hw

theorem inv_subAdd (hs : Inv env s) (c : ClientRef) (sub : Subscription) (ts : List String)
    (sharename : Option String) : Inv env (subAdd env c sub ts sharename s).2 := by
  unfold subAdd
  split
  · exact hs
  · rename_i t0 rest
    split_ifs
    · exact hs
    · split
      · rename_i n hn
        exact inv_subAddContext hs c sub (by simp [hn]) _ _
      · rename_i hn
        obtain ⟨h₁, h₂⟩ := inv_subAddHierEntry_root hs hn
        split
        · rename_i a s₁ heq
          rw [heq] at h₁ h₂
          exact inv_subAddContext h₁ c sub (h₂ a rfl).2 _ _
        · rename_i s₁ heq
          rw [heq] at h₁
          exact h₁

/-! ## Unsubscribing -/

theorem leaf_of_find (hs : Lists env s) {c : ClientRef} {x : Host} {l : LeafRef}
    (hf : (s.subs x).find? (s.leafOf c) = some l) :
    ∃ leaf, s.leaves l = some leaf ∧ leaf.context = c ∧ leaf.host = some x := by
  obtain ⟨leaf, hl, hh⟩ := (hs.listed x l).mp (List.mem_of_find?_eq_some hf)
  have hc := List.find?_some hf
  simp only [Broker.leafOf, hl, decide_eq_true_eq] at hc
  exact ⟨leaf, hl, hc, hh⟩

theorem freeSlot_of_leaf (hs : ∀ c, Slots s c) {l : LeafRef} {leaf : Subleaf}
    (hl : s.leaves l = some leaf) :
    ∃ subs, freeSlot l (s.contexts leaf.context).subs = some subs ∧
      held ⟨subs, 0⟩ = (held (s.contexts leaf.context)).erase l := by
  have hin : some l ∈ (s.contexts leaf.context).subs := by
    simpa [held] using ((hs leaf.context).mem l).mpr ⟨leaf, hl, rfl⟩
  obtain ⟨subs, hsubs⟩ := Option.isSome_iff_exists.mp (freeSlot_isSome.mpr hin)
  exact ⟨subs, hsubs, freeSlot_filterMap hsubs⟩

theorem subRemoveNormal_cases (hs : Inv env s) {c : ClientRef} {a : Addr} {reason : UInt8}
    {rc : Int} {reason' : UInt8} (h : subRemoveNormal env c a reason s = (rc, reason', s')) :
    ((s.subs (.normal a)).find? (s.leafOf c) = none ∧ rc = MosqErr.noSubscribers ∧
      reason' = reason ∧ s' = s) ∨
    (∃ l leaf subs, (s.subs (.normal a)).find? (s.leafOf c) = some l ∧ s.leaves l = some leaf ∧
      leaf.context = c ∧ leaf.host = some (.normal a) ∧
      held ⟨subs, 0⟩ = (held (s.contexts c)).erase l ∧ rc = MosqErr.success ∧ reason' = 0 ∧
      ∃ t, Unlinked s t (.normal a) l ∧ t.hier = s.hier ∧
        t.contexts = Function.update s.contexts c ⟨subs, (s.contexts c).subsCount - 1⟩ ∧
        t.subscriptionCount = s.subscriptionCount - (if env.withSysTree then 1 else 0) ∧
        t.sharedSubscriptionCount = s.sharedSubscriptionCount ∧ Rot t s') := by
  unfold subRemoveNormal at h
  split at h
  · rename_i hf
    cases h
    exact .inl ⟨hf, rfl, rfl, rfl⟩
  · rename_i l hf
    obtain ⟨leaf, hl, rfl, hh⟩ := leaf_of_find hs.lists hf
    obtain ⟨subs, hsubs, hheld⟩ := freeSlot_of_leaf hs.slots hl
    refine .inr ⟨l, leaf, subs, hf, hl, rfl, hh, hheld, ?_⟩
    split_ifs at h with hsys <;> simp only [removeFromIndex, Broker.setSubs, hsubs] at h <;> cases h
    · exact ⟨rfl, rfl, _, ⟨by simp, by simp, by simp⟩, by simp, by simp, by simp [hsys], by simp,
        subUpdateSubscribedTopics_rot env a _⟩
    · exact ⟨rfl, rfl, _, ⟨by simp, by simp, by simp⟩, by simp, by simp, by simp [hsys], by simp,
        Rot.refl _⟩

theorem subRemoveShared_cases (hs : Inv env s) {c : ClientRef} {a : Addr} {reason : UInt8}
    {g : String} {rc : Int} {reason' : UInt8}
    (h : subRemoveShared env c a reason g s = (rc, reason', s')) :
    ((s.subs (.shared a g)).find? (s.leafOf c) = none ∧ rc = MosqErr.noSubscribers ∧
      reason' = reason ∧ s' = s) ∨
    (∃ l leaf subs, (s.subs (.shared a g)).find? (s.leafOf c) = some l ∧
      s.leaves l = some leaf ∧ leaf.context = c ∧ leaf.host = some (.shared a g) ∧
      held ⟨subs, 0⟩ = (held (s.contexts c)).erase l ∧ rc = MosqErr.success ∧ reason' = 0 ∧
      Unlinked s s' (.shared a g) l ∧
      s'.hier = Function.update s.hier a ((s.hier a).map fun n =>
        { n with shared := if (s.subs (.shared a g)).erase l = [] then (s.groups a).erase g
          else s.groups a }) ∧
      s'.contexts = Function.update s.contexts c ⟨subs, (s.contexts c).subsCount - 1⟩ ∧
      s'.subscriptionCount = s.subscriptionCount ∧
      s'.sharedSubscriptionCount =
        s.sharedSubscriptionCount - (if env.withSysTree then 1 else 0)) := by
  unfold subRemoveShared at h
  split at h
  · rename_i hf
    cases h
    exact .inl ⟨hf, rfl, rfl, rfl⟩
  · rename_i l hf
    obtain ⟨leaf, hl, rfl, hh⟩ := leaf_of_find hs.lists hf
    obtain ⟨subs, hsubs, hheld⟩ := freeSlot_of_leaf hs.slots hl
    refine .inr ⟨l, leaf, subs, hf, hl, rfl, hh, hheld, ?_⟩
    by_cases hsys : env.withSysTree = true <;> by_cases he : (s.subs (.shared a g)).erase l = [] <;>
      simp [removeFromIndex, hsubs, hsys, he] at h <;> obtain ⟨rfl, rfl, rfl⟩ := h <;>
      refine ⟨rfl, rfl, ⟨?_, ?_, ?_⟩, ?_, ?_, ?_, ?_⟩ <;>
      simp [deleteShared, he, hsys, map_shared_groups a (List.erase · g)]

theorem hier_of_listed (ht : Tree s) (hs : Lists env s) {l : LeafRef} {leaf : Subleaf} {h : Host}
    (hl : s.leaves l = some leaf) (hh : leaf.host = some h) : (s.hier h.addr).isSome := by
  have hmem := (hs.listed h l).mpr ⟨leaf, hl, hh⟩
  cases h with
  | normal a =>
    by_contra hn
    simp [ht.normalDead a (by simpa using hn)] at hmem
  | shared a g =>
    have hg := (ht.groups a g).mpr (List.ne_nil_of_mem hmem)
    show (s.hier a).isSome
    by_contra hn
    simp [Broker.groups, Option.not_isSome_iff_eq_none.mp hn] at hg

theorem inv_subRemoveNormal (hs : Inv env s) (c : ClientRef) (a : Addr) (reason : UInt8) :
    Inv env (subRemoveNormal env c a reason s).2.2 := by
  rcases h : subRemoveNormal env c a reason s with ⟨rc, reason', s'⟩
  rcases subRemoveNormal_cases hs h with ⟨-, -, -, rfl⟩ |
    ⟨l, leaf, subs, -, hl, rfl, hh, hheld, -, -, t, hun, hhier, hctx, hc₁, hc₂, hrot⟩
  · exact hs
  · exact (hs.unlink (hs.tree.setNormal (hier_of_listed hs.tree hs.lists hl hh) hhier hun.subs) hun hl hh hctx
      hheld rfl fun hsys => by simp_all [Host.sharedName]).rot hrot

theorem inv_subRemoveShared (hs : Inv env s) (c : ClientRef) (a : Addr) (reason : UInt8)
    (g : String) : Inv env (subRemoveShared env c a reason g s).2.2 := by
  rcases h : subRemoveShared env c a reason g s with ⟨rc, reason', s'⟩
  rcases subRemoveShared_cases hs h with ⟨-, -, -, rfl⟩ |
    ⟨l, leaf, subs, -, hl, rfl, hh, hheld, -, -, hun, hhier, hctx, hc₁, hc₂⟩
  · exact hs
  · have hmem := (hs.lists.listed _ l).mpr ⟨leaf, hl, hh⟩
    have hg : g ∈ s.groups a := (hs.tree.groups a g).mpr (List.ne_nil_of_mem hmem)
    have hG : (if (s.subs (.shared a g)).erase l = [] then (s.groups a).erase g
        else s.groups a).Nodup := by
      split_ifs
      · exact (hs.tree.groupsNodup a).erase g
      · exact hs.tree.groupsNodup a
    have hmemG : ∀ g', g' ∈ (if (s.subs (.shared a g)).erase l = [] then (s.groups a).erase g
        else s.groups a) ↔ if g' = g then (s.subs (.shared a g)).erase l ≠ [] else g' ∈ s.groups a :=
      fun g' => by
        by_cases hg' : g' = g
        · subst hg'
          by_cases he : (s.subs (.shared a g')).erase l = [] <;>
            simp [he, hg, (hs.tree.groupsNodup a).mem_erase_iff]
        · split_ifs <;> simp [hg', (hs.tree.groupsNodup a).mem_erase_iff]
    exact hs.unlink (hs.tree.setShared (hier_of_listed hs.tree hs.lists hl hh) hG hmemG hhier hun.subs) hun hl hh
      hctx hheld rfl fun hsys => by simp_all [Host.sharedName]

theorem inv_pruneChild (hs : Inv env s) {a : Addr} (ha : a ≠ []) (t : String) :
    Inv env (pruneChild a t s) := by
  unfold pruneChild
  split
  · split_ifs with hb
    · exact hs.ofTree (hs.tree.prune ha hb.1 hb.2.1 hb.2.2 (by simp) rfl) rfl rfl rfl le_rfl rfl rfl
    · exact hs
  · exact hs

theorem inv_subRemoveRecurse (c : ClientRef) (sharename : Option String) (ts : List String) :
    ∀ {a : Addr} {reason : UInt8} {s : Broker}, Inv env s → a ≠ [] →
      Inv env (subRemoveRecurse env c sharename a ts reason s).2.2 := by
  induction ts with
  | nil =>
    intro a reason s hs _
    cases sharename with
    | some g => exact inv_subRemoveShared hs c a reason g
    | none => exact inv_subRemoveNormal hs c a reason
  | cons t ts ih =>
    intro a reason s hs ha
    unfold subRemoveRecurse
    split
    · exact hs
    · exact inv_pruneChild (ih hs (List.cons_ne_nil t a)) ha t

theorem inv_subRemove (hs : Inv env s) (c : ClientRef) (ts : List String)
    (sharename : Option String) (reason : UInt8) :
    Inv env (subRemove env c ts sharename reason s).2.2 := by
  unfold subRemove
  split
  · exact hs
  · split
    · exact inv_subRemoveRecurse c sharename _ hs (List.cons_ne_nil _ [])
    · exact hs

/-! ## Session cleanup -/

theorem find_leafOf_self (hs : Lists env s) {l : LeafRef} {leaf : Subleaf} {h : Host}
    (hl : s.leaves l = some leaf) (hh : leaf.host = some h) :
    (s.subs h).find? (s.leafOf leaf.context) = some l := by
  have hmem := (hs.listed h l).mpr ⟨leaf, hl, hh⟩
  have hown : s.leafOf leaf.context l = true := by simp [Broker.leafOf, hl]
  obtain ⟨m, hm⟩ := Option.isSome_iff_exists.mp (List.find?_isSome.mpr ⟨l, hmem, hown⟩)
  obtain ⟨leaf', hl', hc, -⟩ := leaf_of_find hs hm
  rw [hm]
  by_contra hne
  have hid : leafId env s m ≠ leafId env s l :=
    (hs.ids h).forall (fun _ _ h => Ne.symm h) (List.mem_of_find?_eq_some hm) hmem
      (fun e => hne (congrArg some e))
  exact hid (by simp [leafId, hl, hl', hc])

theorem tmpRemoveSubs_cases {a : Addr} {r : Option Addr} {t : Broker}
    (h : tmpRemoveSubs a s = (r, t)) :
    (r = none ∧ t = s ∧
      ((s.hier a).isSome → 2 ≤ a.length → s.children a ≠ [] ∨ s.subs (.normal a) ≠ [])) ∨
    ∃ k p, a = k :: p ∧ p ≠ [] ∧ (s.hier a).isSome ∧ s.children a = [] ∧
      s.subs (.normal a) = [] ∧
      t = (s.modifyHier p fun m => { m with children := m.children.erase k }).setHier a none ∧
      (r = none ∧ ¬((t.hier p).isSome ∧ t.subs (.normal p) = [] ∧ t.children p = [] ∧
          t.groups p = [] ∧ hasParent p) ∨
        r = some p ∧ t.subs (.normal p) = [] ∧ t.children p = [] ∧ t.groups p = [] ∧
          hasParent p) := by
  unfold tmpRemoveSubs at h
  split at h
  · rename_i k p q
    split at h
    · rename_i n hn
      split_ifs at h with hbusy
      · cases h; exact .inl ⟨rfl, rfl, fun _ _ => not_and_or.mp fun h => by simp_all⟩
      · push_neg at hbusy
        refine .inr ⟨k, p :: q, rfl, List.cons_ne_nil _ _, by simp [hn], hbusy.1, hbusy.2, ?_⟩
        dsimp only at h
        split at h
        · split_ifs at h with hp
          · cases h; exact ⟨rfl, .inr ⟨rfl, hp.1, hp.2.1, hp.2.2.1, hp.2.2.2⟩⟩
          · cases h; exact ⟨rfl, .inl ⟨rfl, fun h => hp h.2⟩⟩
        · rename_i hp
          cases h; exact ⟨rfl, .inl ⟨rfl, fun h' => Option.not_isSome_iff_eq_none.mpr hp h'.1⟩⟩
    · rename_i hn
      cases h; exact .inl ⟨rfl, rfl, by simp [hn]⟩
  · rename_i hne
    cases h
    refine .inl ⟨rfl, rfl, fun _ hl => ?_⟩
    match a, hne with
    | _ :: _ :: _, hne => exact absurd rfl (hne _ _ _)

theorem removeUp_eq (a : Addr) (s : Broker) :
    removeUp a s = { s with hier := (removeUp a s).hier } := by
  induction a generalizing s with
  | nil => rfl
  | cons k p ih =>
    unfold removeUp
    rcases h : tmpRemoveSubs (k :: p) s with ⟨r, t⟩
    rcases tmpRemoveSubs_cases h with ⟨rfl, rfl, -⟩ | ⟨k', p', he, -, -, -, -, rfl, hr⟩
    · rfl
    · cases he
      rcases hr with ⟨rfl, -⟩ | ⟨rfl, -⟩
      · rfl
      · dsimp only
        conv_lhs => rw [ih]
        rfl

theorem tree_removeUp (a : Addr) :
    ∀ {s : Broker}, Tree s → s.groups a = [] → Tree (removeUp a s) := by
  induction a with
  | nil => intro s hs _; exact hs
  | cons k p ih =>
    intro s hs hg
    unfold removeUp
    rcases h : tmpRemoveSubs (k :: p) s with ⟨r, t⟩
    rcases tmpRemoveSubs_cases h with ⟨rfl, rfl, -⟩ | ⟨k', p', he, hp, -, hc, hn, ht, hr⟩
    · exact hs
    · cases he
      have htree : Tree t := hs.prune hp hc hn hg (by rw [ht]; simp) (by rw [ht]; rfl)
      rcases hr with ⟨rfl, -⟩ | ⟨rfl, -, -, hgp, -⟩
      · exact htree
      · exact ih htree hgp

theorem inv_removeUp (hs : Inv env s) {a : Addr} (hg : s.groups a = []) :
    Inv env (removeUp a s) := by
  have ht := tree_removeUp a hs.tree hg
  rw [removeUp_eq] at ht ⊢
  exact hs.ofTree ht rfl rfl rfl le_rfl rfl rfl

/-- The invariant in the middle of `sub__clean_session`'s loop, with the slots `rest` still
to visit: everything holds but the client's own array, whose visited slots may point at
freed leaves; every leaf the client still has is in a slot to visit, and every slot to
visit holds a leaf of the client or a freed one. -/
structure CleanInv (env : Env) (c : ClientRef) (s : Broker) (rest : List (Option LeafRef)) :
    Prop where
  tree : Tree s
  lists : Lists env s
  slots : ∀ c', c' ≠ c → Slots s c'
  counted : Counted env s
  remaining : ∀ l leaf, s.leaves l = some leaf → leaf.context = c → some l ∈ rest
  own : ∀ l leaf, some l ∈ rest → s.leaves l = some leaf → leaf.context = c
  nodup : (rest.filterMap id).Nodup

theorem CleanInv.init (hs : Inv env s) (c : ClientRef) :
    CleanInv env c s (s.contexts c).subs where
  tree := hs.tree
  lists := hs.lists
  slots c' _ := hs.slots c'
  counted := hs.counted
  remaining l leaf hl hc := by
    simpa [held] using ((hs.slots c).mem l).mpr ⟨leaf, hl, hc⟩
  own l leaf hin hl := by
    obtain ⟨leaf', hl', hc⟩ := ((hs.slots c).mem l).mp (by simpa [held] using hin)
    rw [hl] at hl'
    cases hl'
    exact hc
  nodup := (hs.slots c).nodup

theorem CleanInv.finish {c : ClientRef} (hs : CleanInv env c s []) :
    Inv env (s.setContext c ⟨[], 0⟩) := by
  refine ⟨hs.tree.congr rfl fun _ => List.Perm.refl _,
    hs.lists.congr (fun _ => List.Perm.refl _) (fun _ => rfl) le_rfl, fun c' => ?_,
    hs.counted.congr hs.lists.fresh (fun _ => rfl) le_rfl rfl rfl⟩
  by_cases hc : c' = c
  · subst hc
    refine ⟨fun l => ?_, by simp [held], by simp [held]⟩
    simp only [Broker.setContext, Function.update_same, held, List.filterMap_nil, List.not_mem_nil,
      false_iff, not_exists, not_and]
    exact fun leaf hl hc => by simpa using hs.remaining l leaf hl hc
  · exact (hs.slots c' hc).congr (by simp [hc]) fun _ => Iff.rfl

theorem unlinkOwn_normal (hs : Lists env s) {l : LeafRef} {leaf : Subleaf} {a : Addr}
    (hl : s.leaves l = some leaf) (hh : leaf.host = some (.normal a)) :
    ∃ u, Unlinked s u (.normal a) l ∧ u.hier = s.hier ∧ u.contexts = s.contexts ∧
      u.persistDeleted = s.persistDeleted ∧
      u.subscriptionCount = s.subscriptionCount - (if env.withSysTree then 1 else 0) ∧
      u.sharedSubscriptionCount = s.sharedSubscriptionCount ∧
      Rot u ((unlinkOwn env leaf.context a none s).setLeaf l none) := by
  have hf := find_leafOf_self hs hl hh
  unfold unlinkOwn
  rw [hf]
  dsimp only
  split_ifs with hsys
  · refine ⟨_, ⟨?_, ?_, ?_⟩, ?_, ?_, ?_, ?_, ?_, (subUpdateSubscribedTopics_rot env a _).setLeaf l none⟩ <;>
      simp [hsys]
  · refine ⟨_, ⟨?_, ?_, ?_⟩, ?_, ?_, ?_, ?_, ?_, Rot.refl _⟩ <;> simp [hsys]

theorem unlinkOwn_shared (hs : Lists env s) {l : LeafRef} {leaf : Subleaf} {a : Addr}
    {g : String} (hl : s.leaves l = some leaf) (hh : leaf.host = some (.shared a g)) :
    Unlinked s ((unlinkOwn env leaf.context a (some g) s).setLeaf l none) (.shared a g) l ∧
      ((unlinkOwn env leaf.context a (some g) s).setLeaf l none).hier =
        Function.update s.hier a ((s.hier a).map fun n =>
          { n with shared := if (s.subs (.shared a g)).erase l = [] then (s.groups a).erase g
            else s.groups a }) ∧
      ((unlinkOwn env leaf.context a (some g) s).setLeaf l none).contexts = s.contexts ∧
      ((unlinkOwn env leaf.context a (some g) s).setLeaf l none).persistDeleted =
        s.persistDeleted ∧
      ((unlinkOwn env leaf.context a (some g) s).setLeaf l none).subscriptionCount =
        s.subscriptionCount ∧
      ((unlinkOwn env leaf.context a (some g) s).setLeaf l none).sharedSubscriptionCount =
        s.sharedSubscriptionCount - (if env.withSysTree then 1 else 0) := by
  have hf := find_leafOf_self hs hl hh
  simp only [unlinkOwn, subRemoveSharedLeaf, hf]
  by_cases hsys : env.withSysTree = true <;> by_cases he : (s.subs (.shared a g)).erase l = [] <;>
    refine ⟨⟨?_, ?_, ?_⟩, ?_, ?_, ?_, ?_, ?_⟩ <;>
    simp [hsys, he, deleteShared, map_shared_groups a (List.erase · g)]

theorem CleanInv.ofTree {c : ClientRef} {rest : List (Option LeafRef)} (hs : CleanInv env c s rest)
    (ht : Tree s') (hsubs : s'.subs = s.subs) (hleaves : s'.leaves = s.leaves)
    (hctx : s'.contexts = s.contexts) (hc₁ : s'.subscriptionCount = s.subscriptionCount)
    (hc₂ : s'.sharedSubscriptionCount = s.sharedSubscriptionCount)
    (hallocs : s.allocs ≤ s'.allocs) : CleanInv env c s' rest where
  tree := ht
  lists := hs.lists.congr (by simp [hsubs]) (by simp [hleaves]) hallocs
  slots c' hc := (hs.slots c' hc).congr (by rw [hctx]) (by simp [hleaves])
  counted := hs.counted.congr hs.lists.fresh (by simp [hleaves]) hallocs hc₁ hc₂
  remaining l leaf hl := hs.remaining l leaf (hleaves ▸ hl)
  own l leaf hin hl := hs.own l leaf hin (hleaves ▸ hl)
  nodup := hs.nodup

theorem CleanInv.rot {c : ClientRef} {rest : List (Option LeafRef)} (hs : CleanInv env c s rest)
    (h : Rot s s') : CleanInv env c s' rest where
  tree := hs.tree.congr h.hier h.subs_perm
  lists := hs.lists.congr h.subs_perm (by simp [h.leaves]) h.allocs
  slots c' hc := (hs.slots c' hc).congr (by rw [h.contexts]) (by simp [h.leaves])
  counted := hs.counted.congr hs.lists.fresh (by simp [h.leaves]) h.allocs h.subscriptionCount
    h.sharedSubscriptionCount
  remaining l leaf hl := hs.remaining l leaf (h.leaves ▸ hl)
  own l leaf hin hl := hs.own l leaf hin (h.leaves ▸ hl)
  nodup := hs.nodup

theorem CleanInv.skip {c : ClientRef} {x : Option LeafRef} {rest : List (Option LeafRef)}
    (hs : CleanInv env c s (x :: rest)) (hx : ∀ l, x = some l → s.leaves l = none) :
    CleanInv env c s rest where
  tree := hs.tree
  lists := hs.lists
  slots := hs.slots
  counted := hs.counted
  remaining l leaf hl hc := by
    rcases List.mem_cons.mp (hs.remaining l leaf hl hc) with h | h
    · simp [hx l h.symm] at hl
    · exact h
  own l leaf hin := hs.own l leaf (List.mem_cons_of_mem _ hin)
  nodup := by
    cases x with
    | none => simpa using hs.nodup
    | some l => exact (List.nodup_cons.mp (by simpa using hs.nodup)).2

theorem CleanInv.unlink {c : ClientRef} {l : LeafRef} {rest : List (Option LeafRef)}
    (hs : CleanInv env c s (some l :: rest)) {leaf : Subleaf} {h : Host}
    (hl : s.leaves l = some leaf) (hh : leaf.host = some h) (htree : Tree s')
    (hun : Unlinked s s' h l) (hctx : s'.contexts = s.contexts)
    (e_count : env.withSysTree = true →
      s'.subscriptionCount = s.subscriptionCount - (if leaf.shared.isNone then 1 else 0) ∧
      s'.sharedSubscriptionCount = s.sharedSubscriptionCount - if leaf.shared.isSome then 1 else 0) :
    CleanInv env c s' rest where
  tree := htree
  lists := hs.lists.unlink hl hh hun.subs hun.leaves hun.allocs
  slots c' hc' := (hs.slots c' hc').free hl
    (by rw [hs.own l leaf (List.mem_cons_self _ _) hl]; exact Ne.symm hc') hun.leaves (by rw [hctx])
  counted := hs.counted.unlink hs.lists.fresh hl hun.leaves hun.allocs e_count
  remaining m leaf' hm hc := by
    rw [hun.leaves, Function.update_apply] at hm
    split_ifs at hm with hml
    exact (List.mem_cons.mp (hs.remaining m leaf' hm hc)).resolve_left (by simpa using hml)
  own m leaf' hin hm := by
    rw [hun.leaves, Function.update_apply] at hm
    split_ifs at hm
    exact hs.own m leaf' (List.mem_cons_of_mem _ hin) hm
  nodup := (List.nodup_cons.mp (by simpa using hs.nodup)).2

theorem pruneEmpty_eq (a : Addr) (s : Broker) :
    pruneEmpty a s = { s with hier := (pruneEmpty a s).hier } := by
  unfold pruneEmpty
  split
  · split_ifs
    · exact removeUp_eq a s
    · rfl
  · rfl

theorem tree_pruneEmpty (hs : Tree s) (a : Addr) : Tree (pruneEmpty a s) := by
  unfold pruneEmpty
  split
  · split_ifs with h
    · exact tree_removeUp a hs h.2.2.1
    · exact hs
  · exact hs

theorem CleanInv.pruneEmpty {c : ClientRef} {rest : List (Option LeafRef)}
    (hs : CleanInv env c s rest) (a : Addr) : CleanInv env c (pruneEmpty a s) rest := by
  have ht := tree_pruneEmpty hs.tree a
  rw [pruneEmpty_eq] at ht ⊢
  exact hs.ofTree ht rfl rfl rfl rfl rfl le_rfl

theorem CleanInv.step {c : ClientRef} {x : Option LeafRef} {rest : List (Option LeafRef)}
    (hs : CleanInv env c s (x :: rest)) : CleanInv env c (cleanSlot env c x s) rest := by
  cases x with
  | none => exact hs.skip (by simp)
  | some l =>
    cases hl : s.leaves l with
    | none =>
      simp only [cleanSlot, hl]
      exact hs.skip (by simpa using hl)
    | some leaf =>
      have hc := hs.own l leaf (List.mem_cons_self _ _) hl
      obtain ⟨a, ha⟩ := Option.isSome_iff_exists.mp (hs.lists.hosted l leaf hl)
      simp only [cleanSlot, hl, ha]
      subst hc
      have hs₀ : CleanInv env leaf.context
          { s with persistDeleted := s.persistDeleted ++ [(leaf.context, leaf.topicFilter)] }
          (some l :: rest) :=
        hs.ofTree (hs.tree.congr rfl fun _ => List.Perm.refl _) rfl rfl rfl rfl rfl le_rfl
      have hhost : leaf.host = some (Host.of a leaf.shared) := by simp [ha]
      refine CleanInv.pruneEmpty ?_ a
      cases hg : leaf.shared with
      | none =>
        rw [hg] at hhost
        obtain ⟨u, hun, hhier, hctx, -, hc₁, hc₂, hrot⟩ := unlinkOwn_normal hs₀.lists hl hhost
        refine (hs₀.unlink hl hhost (hs₀.tree.setNormal ?_ hhier hun.subs) hun hctx
          fun hsys => by simp [hc₁, hc₂, hsys, hg]).rot hrot
        simpa using hier_of_listed hs₀.tree hs₀.lists hl hhost
      | some g =>
        rw [hg] at hhost
        obtain ⟨hun, hhier, hctx, -, hc₁, hc₂⟩ := unlinkOwn_shared hs₀.lists hl hhost
        have hmem := (hs₀.lists.listed _ l).mpr ⟨leaf, hl, hhost⟩
        have hgs : g ∈ s.groups a := (hs₀.tree.groups a g).mpr (List.ne_nil_of_mem hmem)
        have hG : (if (s.subs (.shared a g)).erase l = [] then (s.groups a).erase g
            else s.groups a).Nodup := by
          split_ifs
          · exact (hs.tree.groupsNodup a).erase g
          · exact hs.tree.groupsNodup a
        have hmemG : ∀ g', g' ∈ (if (s.subs (.shared a g)).erase l = [] then (s.groups a).erase g
            else s.groups a) ↔
              if g' = g then (s.subs (.shared a g)).erase l ≠ [] else g' ∈ s.groups a := fun g' => by
          by_cases hg' : g' = g
          · subst hg'
            by_cases he : (s.subs (.shared a g')).erase l = [] <;>
              simp [he, hgs, (hs.tree.groupsNodup a).mem_erase_iff]
          · split_ifs <;> simp [hg', (hs.tree.groupsNodup a).mem_erase_iff]
        have ha' : (s.hier a).isSome := by simpa using hier_of_listed hs₀.tree hs₀.lists hl hhost
        exact hs₀.unlink hl hhost (hs₀.tree.setShared ha' hG hmemG hhier hun.subs) hun hctx
          fun hsys => by rw [hc₁, hc₂]; simp [hsys, hg]

theorem cleanInv_foldl (c : ClientRef) (rest : List (Option LeafRef)) :
    ∀ {s : Broker}, CleanInv env c s rest →
      CleanInv env c (rest.foldl (fun s slot => cleanSlot env c slot s) s) [] := by
  induction rest with
  | nil => intro s hs; exact hs
  | cons x rest ih => intro s hs; exact ih hs.step

theorem inv_subCleanSession (hs : Inv env s) (c : ClientRef) :
    Inv env (subCleanSession env c s).2 :=
  (cleanInv_foldl c _ (CleanInv.init hs c)).finish

/-! ## Runs -/

theorem inv_run (hs : Inv env s) (op : Op) : Inv env (op.run env s).2 := by
  cases op with
  | subAdd c sub ts g => exact inv_subAdd hs c sub ts g
  | subRemove c ts g r => exact inv_subRemove hs c ts g r
  | subCleanSession c => exact inv_subCleanSession hs c
  | subMessagesQueue src t ts q r m => exact hs.rot (subMessagesQueue_rot env t q r m src ts s)

theorem inv_reachable {ok : Op → Int → Prop} (h : Reachable env ok s) : Inv env s := by
  induction h with
  | init hi => exact Inv.initial hi
  | step op _ _ ih => exact inv_run ih op

end MosquittoSubs.Preservation
