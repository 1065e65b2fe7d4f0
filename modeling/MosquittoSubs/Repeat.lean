import MosquittoSubs.Refinement
import MosquittoSubs.Publication

set_option autoImplicit false

/-!
# Calls repeated, and calls for what is not there

A client that repeats a `sub__add` that succeeded finds every node of the filter, the group
and its own leaf as the first call left them: the second call changes nothing and reports
that the subscription exists. A `sub__remove` for a subscription the client does not hold
changes nothing either, as long as no subscribe has failed and left an empty node behind:
the pruning in `sub__remove_recurse` then finds nothing to delete. And an unsubscribe after
a subscribe gives back the subscriptions held before, though not always the trie.
-/

namespace MosquittoSubs.Repeat
open Model Publish Subscribe Unsubscribe Run Frame Invariant Preservation SubscribeSpec
  UnsubscribeSpec Shape Publication Refinement

variable {env : Env} {s : Broker}

/-! ## The walk over nodes that exist -/

theorem short_of_addContextWalk (ts : List String) :
    ∀ {a : Addr} {s : Broker} {r : Addr × Broker}, addContextWalk env a ts s = .ok r →
      ∀ t ∈ ts, ¬ t.length > uint16Max := by
  induction ts with
  | nil => intro _ _ _ _ t ht; cases ht
  | cons u ts ih =>
    intro a s r h t ht
    unfold addContextWalk at h
    by_cases hu : u.length > uint16Max
    · rw [if_pos hu] at h
      cases h
    rw [if_neg hu] at h
    rcases List.mem_cons.mp ht with rfl | ht
    · exact hu
    split at h
    · exact ih h t ht
    · split at h
      · exact ih h t ht
      · cases h

theorem addContextWalk_of_isSome (ht : Tree s) (ts : List String) :
    ∀ {a : Addr}, (∀ t ∈ ts, ¬ t.length > uint16Max) → (s.hier (ts.reverse ++ a)).isSome →
      addContextWalk env a ts s = .ok (ts.reverse ++ a, s) := by
  induction ts with
  | nil => intro a _ _; rfl
  | cons t ts ih =>
    intro a hshort hb
    rw [path_cons] at hb ⊢
    obtain ⟨n, hn⟩ := Option.isSome_iff_exists.mp
      (hier_of_append ht ts.reverse (List.cons_ne_nil t a) hb)
    simp only [addContextWalk, if_neg (hshort t (List.mem_cons_self t ts)), hn]
    exact ih (fun u hu => hshort u (List.mem_cons_of_mem t hu)) hb

theorem short_of_subAdd {c : ClientRef} {sub : Subscription} {ts : List String}
    {g : Option String} (hrc : Added (subAdd env c sub ts g s).1) :
    ∃ t0 rest, ts = t0 :: rest ∧ ∀ t ∈ ts, ¬ t.length > uint16Max := by
  have hctx : ∀ {a : Addr} {s' : Broker}, Added (subAddContext env c sub a ts g s').1 →
      ∀ t ∈ ts, ¬ t.length > uint16Max := by
    intro a s' h
    cases hw : addContextWalk env a ts s' with
    | error r =>
      obtain ⟨rc, t⟩ := r
      simp only [subAddContext, hw] at h
      rcases addContextWalk_error _ hw with rfl | rfl
      exacts [absurd rfl (fail_ne_ok h).2, absurd rfl (fail_ne_ok h).1]
    | ok r => exact short_of_addContextWalk ts hw
  cases ts with
  | nil => exact absurd rfl (fail_ne_ok hrc).2
  | cons t0 rest =>
    refine ⟨t0, rest, rfl, ?_⟩
    simp only [subAdd] at hrc
    by_cases hlong : t0.length > uint16Max
    · rw [if_pos hlong] at hrc
      exact absurd rfl (fail_ne_ok hrc).2
    rw [if_neg hlong] at hrc
    split at hrc
    · exact hctx hrc
    · split at hrc
      · exact hctx hrc
      · exact absurd rfl (fail_ne_ok hrc).1

theorem subAdd_of_isSome (ht : Tree s) (c : ClientRef) (sub : Subscription) {t0 : String}
    {rest : List String} (g : Option String) (hshort : ∀ t ∈ t0 :: rest, ¬ t.length > uint16Max)
    (hb : (s.hier (filterNode (t0 :: rest))).isSome) :
    subAdd env c sub (t0 :: rest) g s = if (env.client c).id.isSome then
      g.elim (subAddNormal env c sub (filterNode (t0 :: rest)) s)
        fun g => subAddShared env c sub (filterNode (t0 :: rest)) g s
    else (MosqErr.success, s) := by
  obtain ⟨n, hn⟩ := Option.isSome_iff_exists.mp
    (hier_of_append ht (t0 :: rest).reverse (List.cons_ne_nil t0 []) hb)
  have hwalk : addContextWalk env [t0] (t0 :: rest) s = .ok (filterNode (t0 :: rest), s) :=
    addContextWalk_of_isSome ht (t0 :: rest) hshort hb
  simp only [subAdd, if_neg (hshort t0 (List.mem_cons_self t0 rest)), hn, subAddContext, hwalk]
  cases g <;> rfl

/-! ## The leaf a subscribe leaves -/

theorem sameId_congr {s t : Broker} (h : ∀ l, (t.leaves l).map Subleaf.context =
    (s.leaves l).map Subleaf.context) (c : ClientRef) : sameId env c t = sameId env c s := by
  funext l
  have hl := h l
  revert hl
  unfold sameId
  cases t.leaves l <;> cases s.leaves l <;> intro hl
  · rfl
  · cases hl
  · cases hl
  · dsimp only
    rw [Option.some.inj hl]

theorem sameId_of_leaves {s t : Broker} (h : t.leaves = s.leaves) (c : ClientRef) :
    sameId env c t = sameId env c s :=
  sameId_congr (fun l => by rw [h]) c

theorem sameId_modifyLeaf (m : LeafRef) (f : Subleaf → Subleaf)
    (hf : ∀ leaf, (f leaf).context = leaf.context) (c : ClientRef) :
    sameId env c (s.modifyLeaf m f) = sameId env c s := by
  refine sameId_congr (fun l => ?_) c
  by_cases h : l = m
  · subst h
    simp only [Broker.modifyLeaf, Broker.setLeaf, Function.update_same]
    cases s.leaves l <;> simp [hf]
  · simp [h]

theorem modifyLeaf_self {m : LeafRef} {leaf : Subleaf} {f : Subleaf → Subleaf}
    (hl : s.leaves m = some leaf) (hf : f leaf = leaf) : s.modifyLeaf m f = s := by
  simp only [Broker.modifyLeaf, Broker.setLeaf, hl, Option.map_some', hf]
  rw [← hl, Function.update_eq_self]

theorem addAt_found (c : ClientRef) (sub : Subscription) {b : Addr} {g : Option String}
    {m : LeafRef} (hm : (s.subs (Host.of b g)).find? (sameId env c s) = some m)
    (hg : ∀ n, g = some n → n ∈ s.groups b) :
    g.elim (subAddNormal env c sub b s) (fun g => subAddShared env c sub b g s) =
      (protocolRc env c MosqErr.subExists, s.modifyLeaf m fun leaf =>
        { leaf with identifier := sub.identifier, subscriptionOptions := sub.options }) := by
  cases g with
  | none =>
    simp only [Host.of] at hm
    simp only [Option.elim, subAddNormal, subAddLeaf, hm]
  | some n =>
    simp only [Host.of] at hm
    simp only [Option.elim, subAddShared, findOrAddShared, if_pos (hg n rfl), subAddLeaf, hm]

theorem subAdd_found (hs : Inv env s) {c : ClientRef} {sub : Subscription} {ts : List String}
    {g : Option String} (hid : (env.client c).id.isSome) (hrc : Added (subAdd env c sub ts g s).1) :
    let s' := (subAdd env c sub ts g s).2
    ∃ m leaf, (s'.subs (Host.of (filterNode ts) g)).find? (sameId env c s') = some m ∧
      s'.leaves m = some leaf ∧ leaf.identifier = sub.identifier ∧
      leaf.subscriptionOptions = sub.options := by
  obtain ⟨s₁, hs₁, -, -, -, -, -, -, -, e⟩ := subAdd_reaches hs hid hrc
  dsimp only
  rw [e] at hrc ⊢
  rcases addAt_cases hs₁ c sub (filterNode ts) g with ⟨m, hm, -, hr⟩ | ⟨hno, -⟩ |
    ⟨hf, -, t, l, subs, -, hlink, hrot, hx⟩
  · -- the leaf found is updated in place
    obtain ⟨leaf, hl, -⟩ := (hs₁.lists.listed _ m).mp (List.mem_of_find?_eq_some hm)
    rw [hr]
    refine ⟨m, { leaf with identifier := sub.identifier, subscriptionOptions := sub.options }, ?_,
      by simp [hl], rfl, rfl⟩
    rw [sameId_modifyLeaf m (fun leaf =>
      { leaf with identifier := sub.identifier, subscriptionOptions := sub.options }) (fun _ => rfl) c]
    simpa using hm
  · exact absurd hno (fail_ne_ok hrc).1
  · -- a new leaf ends the list, and none before it has the client's id
    obtain ⟨i, hi⟩ := Option.isSome_iff_exists.mp hid
    refine ⟨l, _, ?_, by rw [hrot.leaves, hlink.leaves, Function.update_same], rfl, rfl⟩
    have hprefix : (s₁.subs (Host.of (filterNode ts) g)).find? (sameId env c t) = none := by
      refine List.find?_eq_none.mpr fun m hm => ?_
      have hne : m ≠ l := fun e => hs₁.lists.fresh_not_mem hlink.fresh _ (e ▸ hm)
      have hold := List.find?_eq_none.mp hf m hm
      simpa only [sameId, hlink.leaves, Function.update_noteq hne] using hold
    rw [hx, sameId_of_leaves hrot.leaves c, hlink.subs, Function.update_same,
      List.find?_append, hprefix]
    simp [sameId, hlink.leaves, hi]

/-! ## Repeating a subscribe -/

/-- A subscribe repeated by a client with an id, in every state with the invariant, after
the first call succeeded (`MOSQ_ERR_SUCCESS` or `MOSQ_ERR_SUB_EXISTS`, under any allocation
failures): the second call returns the state unchanged, with `MOSQ_ERR_SUB_EXISTS` for an
MQTT v3.1 or v5 client and `MOSQ_ERR_SUCCESS` for the others. -/
theorem subAdd_repeat (hs : Inv env s) (c : ClientRef) (sub : Subscription) (ts : List String)
    (g : Option String) (hid : (env.client c).id.isSome)
    (hrc : (subAdd env c sub ts g s).1 = MosqErr.success ∨
      (subAdd env c sub ts g s).1 = MosqErr.subExists) :
    subAdd env c sub ts g (subAdd env c sub ts g s).2 =
      (protocolRc env c MosqErr.subExists, (subAdd env c sub ts g s).2) := by
  obtain ⟨t0, rest, rfl, hshort⟩ := short_of_subAdd hrc
  have ht := (inv_subAdd hs c sub (t0 :: rest) g).tree
  obtain ⟨m, leaf, hm, hl, hi, ho⟩ := subAdd_found hs hid hrc
  have hmem := List.mem_of_find?_eq_some hm
  have hb := isSome_hier_of_mem ht hmem
  rw [Host.of_addr] at hb
  have hg : ∀ n, g = some n → n ∈ (subAdd env c sub (t0 :: rest) g s).2.groups
      (filterNode (t0 :: rest)) := by
    rintro n rfl
    exact (ht.groups _ n).mpr (List.ne_nil_of_mem hmem)
  rw [subAdd_of_isSome ht c sub g hshort hb, if_pos hid, addAt_found c sub hm hg,
    modifyLeaf_self hl (by rw [← hi, ← ho])]

theorem subAdd_repeat_shared :
    let s' := (subAdd (plainEnv false) 1 ⟨"a", 0, 1⟩ ["", "a"] (some "g") emptyBroker).2
    ((plainEnv false).client 1).id.isSome ∧
      (subAdd (plainEnv false) 1 ⟨"a", 0, 1⟩ ["", "a"] (some "g") emptyBroker).1 =
        MosqErr.success ∧
      subAdd (plainEnv false) 1 ⟨"a", 0, 1⟩ ["", "a"] (some "g") s' =
        (protocolRc (plainEnv false) 1 MosqErr.subExists, s') :=
  ⟨by decide, by decide, subAdd_repeat (Inv.initial initial_emptyBroker) 1 ⟨"a", 0, 1⟩
    ["", "a"] (some "g") (by decide) (.inl (by decide))⟩

/-! ## Unsubscribing from what the client does not hold -/

/-- Calls whose subscriptions are made by clients with an id and take effect; any other call
may return anything. -/
def Subscribed (env : Env) : Op → Int → Prop
  | .subAdd c _ _ _, rc => (env.client c).id.isSome ∧ Added rc
  | _, _ => True

theorem full_of_subscribed (h : Reachable env (Subscribed env) s) : Full s := by
  induction h with
  | init hi => exact full_initial hi
  | step op hr hok ih =>
    have hs := inv_reachable hr
    cases op with
    | subAdd c sub ts g => exact full_subAdd hs ih c sub ts g hok.1 hok.2
    | subRemove c ts g r => exact full_subRemove hs ih c ts g r
    | subCleanSession c => exact full_subCleanSession hs ih c
    | subMessagesQueue src t ts q r m => exact ih.rot (subMessagesQueue_rot env t q r m src ts _)

theorem subRemoveRecurse_absent (hf : Full s) (c : ClientRef) (g : Option String)
    (ts : List String) : ∀ {a : Addr} (reason : UInt8), a ≠ [] →
      (s.subs (Host.of (ts.reverse ++ a) g)).find? (s.leafOf c) = none →
      (subRemoveRecurse env c g a ts reason s).2.2 = s := by
  induction ts with
  | nil =>
    intro a reason _ hnone
    cases g with
    | none =>
      simp only [List.reverse_nil, List.nil_append, Host.of] at hnone
      simp only [subRemoveRecurse, subRemoveNormal, hnone]
    | some g =>
      simp only [List.reverse_nil, List.nil_append, Host.of] at hnone
      simp only [subRemoveRecurse, subRemoveShared, hnone]
  | cons t ts ih =>
    intro a reason ha hnone
    rw [path_cons] at hnone
    unfold subRemoveRecurse
    split
    · rfl
    · rename_i n hn
      have hbare : ¬ bare s (t :: a) := hf (t :: a) (by simp [hn]) (by
        cases a with
        | nil => exact absurd rfl ha
        | cons _ _ => simp)
      dsimp only
      rw [ih reason (List.cons_ne_nil t a) hnone, pruneChild_of_not_bare hbare]

/-- An unsubscribe from a filter in whose list the client has no leaf leaves the engine
exactly as it was, in every state reached by calls whose subscriptions take effect. -/
theorem subRemove_absent (h : Reachable env (Subscribed env) s) (c : ClientRef) (ts : List String)
    (g : Option String) (reason : UInt8)
    (hnone : ∀ l ∈ s.subs (Host.of (filterNode ts) g), s.leafOf c l = false) :
    (subRemove env c ts g reason s).2.2 = s := by
  have hfind : (s.subs (Host.of (filterNode ts) g)).find? (s.leafOf c) = none :=
    List.find?_eq_none.mpr fun l hl => by simp [hnone l hl]
  unfold subRemove
  split
  · rfl
  · rename_i t0 rest
    split
    · exact subRemoveRecurse_absent (full_of_subscribed h) c g (t0 :: rest) _ (List.cons_ne_nil t0 [])
        hfind
    · rfl

theorem subRemove_absent_other_client :
    let s := ((Op.subAdd 1 ⟨"a", 0, 0⟩ ["", "a"] none).run (plainEnv false) emptyBroker).2
    Reachable (plainEnv false) (Subscribed (plainEnv false)) s ∧
      (∀ l ∈ s.subs (Host.of (filterNode ["", "a"]) none), s.leafOf 2 l = false) ∧
      (subRemove (plainEnv false) 2 ["", "a"] none 0 s).2.2 = s :=
  have h : Reachable (plainEnv false) (Subscribed (plainEnv false))
      ((Op.subAdd 1 ⟨"a", 0, 0⟩ ["", "a"] none).run (plainEnv false) emptyBroker).2 :=
    .step _ (.init initial_emptyBroker) ⟨by decide, .inl (by decide)⟩
  ⟨h, by decide, subRemove_absent h 2 ["", "a"] none 0 (by decide)⟩

/-! ## Subscribe, then unsubscribe -/

theorem Store.unsubscribe_subscribe (S : Store) (c : ClientRef) (x : Host) (sub : Subscription) :
    (S.subscribe c x sub).unsubscribe c x = S.unsubscribe c x := by
  funext c' x'
  simp only [Store.unsubscribe, Store.subscribe]
  split_ifs <;> rfl

theorem Store.unsubscribe_of_none {S : Store} {c : ClientRef} {x : Host} (h : S c x = none) :
    S.unsubscribe c x = S := by
  funext c' x'
  simp only [Store.unsubscribe]
  split_ifs with hc
  · rw [hc.1, hc.2, h]
  · rfl

/-- A subscribe undone by an unsubscribe of the same filter gives back the subscriptions
held, from every state with the invariant where the client held none in the filter's list,
whatever the subscribe returned. -/
theorem storeOf_subAdd_subRemove (hids : IdsDistinct env) (hs : Inv env s) (c : ClientRef)
    (sub : Subscription) (ts : List String) (g : Option String) (reason : UInt8)
    (hnone : storeOf s c (Host.of (filterNode ts) g) = none) :
    storeOf (subRemove env c ts g reason (subAdd env c sub ts g s).2).2.2 = storeOf s := by
  rw [storeOf_subRemove (inv_subAdd hs c sub ts g) c ts g reason, storeOf_subAdd hids hs c sub ts g]
  refine Eq.trans ?_ (Store.unsubscribe_of_none hnone)
  simp only [effect]
  split_ifs
  · exact Store.unsubscribe_subscribe _ c _ sub
  · rfl

theorem storeOf_subAdd_subRemove_first :
    storeOf emptyBroker 1 (Host.of (filterNode ["", "a"]) none) = none ∧
      storeOf (subRemove (plainEnv false) 1 ["", "a"] none 0
        (subAdd (plainEnv false) 1 ⟨"a", 0, 0⟩ ["", "a"] none emptyBroker).2).2.2 =
        storeOf emptyBroker :=
  ⟨rfl, storeOf_subAdd_subRemove (idsDistinct_plainEnv false) (Inv.initial initial_emptyBroker)
    1 ⟨"a", 0, 0⟩ ["", "a"] none 0 rfl⟩

end MosquittoSubs.Repeat
