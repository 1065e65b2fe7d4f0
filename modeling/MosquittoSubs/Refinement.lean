import MosquittoSubs.CleanSpec

set_option autoImplicit false

/-!
# The subscriptions the engine holds

What the trie, its leaf lists and the leaves amount to: for each client and each list, the
subscription its leaf there records, if it has one. `storeOf` reads that map off a broker,
`effect` says what each entry point does to it, given the code the call returned, and the
engine refines the map: along every run the broker's subscriptions are the ones the calls'
results describe. A subscription that `sub__add` finds already held is updated in place,
so it keeps the filter text it was first made with.
-/

namespace MosquittoSubs.Refinement
open Model Publish Subscribe Unsubscribe Clean Run Frame Invariant Preservation SubscribeSpec
  UnsubscribeSpec CleanSpec

/-! ## The abstract map -/

/-- The subscriptions held: the one of each client in each list, if any. -/
abbrev Store := ClientRef → Host → Option Subscription

namespace Store

/-- No subscriptions. -/
def empty : Store := fun _ _ => none

/-- `c` subscribes in the list `x`: a subscription it holds there takes the new identifier
and options, otherwise `sub` is added. -/
def subscribe (S : Store) (c : ClientRef) (x : Host) (sub : Subscription) : Store :=
  fun c' x' => if c' = c ∧ x' = x then
    some ((S c x).elim sub fun old => { old with identifier := sub.identifier, options := sub.options })
  else S c' x'

/-- `c` holds nothing in the list `x`. -/
def unsubscribe (S : Store) (c : ClientRef) (x : Host) : Store :=
  fun c' x' => if c' = c ∧ x' = x then none else S c' x'

/-- `c` holds nothing anywhere. -/
def clean (S : Store) (c : ClientRef) : Store :=
  fun c' x' => if c' = c then none else S c' x'

end Store

/-- What a call does to the subscriptions, given the code it returned. `sub__add` records
the subscription when the client has an id and the call returns `MOSQ_ERR_SUCCESS` or
`MOSQ_ERR_SUB_EXISTS`, and changes nothing otherwise; `sub__remove` drops the client's
subscription in the filter's list; `sub__clean_session` drops all of the client's; a
publish changes none. -/
def effect (env : Env) : Op → Int → Store → Store
  | .subAdd c sub ts g, rc, S =>
    if (env.client c).id.isSome ∧ (rc = MosqErr.success ∨ rc = MosqErr.subExists) then
      S.subscribe c (Host.of (filterNode ts) g) sub
    else S
  | .subRemove c ts g _, _, S => S.unsubscribe c (Host.of (filterNode ts) g)
  | .subCleanSession c, _, S => S.clean c
  | .subMessagesQueue .., _, S => S

/-! ## The map a broker holds -/

/-- The subscription a leaf records. -/
def subscriptionOf (leaf : Subleaf) : Subscription :=
  ⟨leaf.topicFilter, leaf.identifier, leaf.subscriptionOptions⟩

/-- The broker's subscriptions: a client's in a list is the one its leaf there records,
the leaf found as `sub__remove` finds it, by `leaf->context`. -/
def storeOf (s : Broker) : Store := fun c x =>
  ((s.subs x).find? (s.leafOf c)).bind fun l => (s.leaves l).map subscriptionOf

/-- The client `c` has a leaf in the list `x` that records `sub`. -/
def Holds (s : Broker) (c : ClientRef) (x : Host) (sub : Subscription) : Prop :=
  ∃ l ∈ s.subs x, ∃ leaf, s.leaves l = some leaf ∧ leaf.context = c ∧ subscriptionOf leaf = sub

variable {env : Env} {s t : Broker} {c : ClientRef} {x : Host} {sub : Subscription}

theorem eq_of_context_eq (hs : Lists env s) {l m : LeafRef} {leaf leaf' : Subleaf}
    (hl : l ∈ s.subs x) (hm : m ∈ s.subs x) (hleaf : s.leaves l = some leaf)
    (hleaf' : s.leaves m = some leaf') (hc : leaf'.context = leaf.context) : m = l := by
  obtain ⟨k, hk, hh⟩ := (hs.listed x l).mp hl
  obtain ⟨k', hk', hh'⟩ := (hs.listed x m).mp hm
  rw [hleaf] at hk
  rw [hleaf'] at hk'
  cases hk
  cases hk'
  have e₁ := find_leafOf_self hs hleaf hh
  have e₂ := find_leafOf_self hs hleaf' hh'
  rw [hc, e₁] at e₂
  exact (Option.some.inj e₂).symm

theorem storeOf_eq_some (hs : Lists env s) : storeOf s c x = some sub ↔ Holds s c x sub := by
  constructor
  · intro h
    simp only [storeOf, Option.bind_eq_some, Option.map_eq_some'] at h
    obtain ⟨l, hf, leaf, hl, rfl⟩ := h
    have hc := List.find?_some hf
    exact ⟨l, List.mem_of_find?_eq_some hf, leaf, hl, by simpa [Broker.leafOf, hl] using hc, rfl⟩
  · rintro ⟨l, hx, leaf, hl, rfl, rfl⟩
    obtain ⟨leaf', hl', hh⟩ := (hs.listed x l).mp hx
    rw [hl] at hl'
    cases hl'
    simp [storeOf, find_leafOf_self hs hl hh, hl]

theorem storeOf_eq_none (hs : Lists env s) : storeOf s c x = none ↔ ∀ sub, ¬ Holds s c x sub := by
  simp only [← storeOf_eq_some hs, Option.eq_none_iff_forall_not_mem, Option.mem_def]

theorem storeOf_eq (ht : Lists env t) {S : Store}
    (h : ∀ c x sub, Holds t c x sub ↔ S c x = some sub) : storeOf t = S := by
  funext c x
  apply Option.ext
  intro sub
  exact (storeOf_eq_some ht).trans (h c x sub)

theorem holds_congr (hmem : ∀ x l, l ∈ t.subs x ↔ l ∈ s.subs x) (hleaves : t.leaves = s.leaves) :
    Holds t c x sub ↔ Holds s c x sub := by
  simp only [Holds, hmem, hleaves]

/-! ## What each step of the engine does to the map -/

theorem holds_rot (h : Rot s t) : Holds t c x sub ↔ Holds s c x sub :=
  holds_congr h.mem_subs h.leaves

theorem host_of_mem (hs : Lists env s) {l : LeafRef} {leaf : Subleaf} {y : Host}
    (hl : s.leaves l = some leaf) (hm : l ∈ s.subs y) : leaf.host = some y := by
  obtain ⟨k, hk, hh⟩ := (hs.listed y l).mp hm
  rw [hl] at hk
  cases hk
  exact hh

theorem holds_modifyLeaf (hs : Lists env s) {m : LeafRef} {leaf : Subleaf} (hm : m ∈ s.subs x)
    (hleaf : s.leaves m = some leaf) (f : Subleaf → Subleaf) (hf : (f leaf).context = leaf.context)
    (c' : ClientRef) (y : Host) :
    Holds (s.modifyLeaf m f) c' y sub ↔
      if c' = leaf.context ∧ y = x then sub = subscriptionOf (f leaf) else Holds s c' y sub := by
  have hh := host_of_mem hs hleaf hm
  simp only [Holds, Broker.modifyLeaf, Broker.setLeaf, hleaf, Option.map_some']
  split_ifs with hcy
  · obtain ⟨rfl, rfl⟩ := hcy
    constructor
    · rintro ⟨l, hl, leaf', hl', hc, rfl⟩
      by_cases hlm : l = m
      · subst hlm
        simp only [Function.update_same, Option.some.injEq] at hl'
        subst hl'
        rfl
      · rw [Function.update_noteq hlm] at hl'
        exact absurd (eq_of_context_eq hs hm hl hleaf hl' hc) hlm
    · rintro rfl
      exact ⟨m, hm, f leaf, by simp, hf, rfl⟩
  · refine exists_congr fun l => and_congr_right fun hl => ?_
    by_cases hlm : l = m
    · subst hlm
      have hy : y = x := Option.some.inj ((host_of_mem hs hleaf hl).symm.trans hh)
      simp only [Function.update_same, Option.some.injEq, hleaf, exists_eq_left', hf]
      exact ⟨fun ⟨hc, _⟩ => absurd ⟨hc.symm, hy⟩ hcy, fun ⟨hc, _⟩ => absurd ⟨hc.symm, hy⟩ hcy⟩
    · rw [Function.update_noteq hlm]

theorem holds_linked (hs : Lists env s) {l : Nat} {leaf : Subleaf} {ctx : Context}
    (hlink : Linked s t x l leaf ctx) (c' : ClientRef) (y : Host) :
    Holds t c' y sub ↔
      (c' = leaf.context ∧ y = x ∧ sub = subscriptionOf leaf) ∨ Holds s c' y sub := by
  have hfresh : s.leaves l = none := hs.fresh l hlink.fresh
  have hout : ∀ y, l ∉ s.subs y := fun y => hs.fresh_not_mem hlink.fresh y
  have hmem : ∀ m, m ∈ t.subs y ↔ (y = x ∧ m = l) ∨ m ∈ s.subs y := fun m => by
    rw [hlink.subs, Function.update_apply]
    split_ifs with hy
    · subst hy
      simp [or_comm]
    · simp [hy]
  constructor
  · rintro ⟨m, hm, leaf', hl', hc, rfl⟩
    rcases (hmem m).mp hm with ⟨rfl, rfl⟩ | hm
    · rw [hlink.leaves, Function.update_same, Option.some.injEq] at hl'
      subst hl'
      exact .inl ⟨hc.symm, rfl, rfl⟩
    · have hml : m ≠ l := fun e => hout y (e ▸ hm)
      rw [hlink.leaves, Function.update_noteq hml] at hl'
      exact .inr ⟨m, hm, leaf', hl', hc, rfl⟩
  · rintro (⟨rfl, rfl, rfl⟩ | ⟨m, hm, leaf', hl', hc, rfl⟩)
    · exact ⟨l, (hmem l).mpr (.inl ⟨rfl, rfl⟩), leaf, by rw [hlink.leaves, Function.update_same],
        rfl, rfl⟩
    · have hml : m ≠ l := fun e => hout y (e ▸ hm)
      exact ⟨m, (hmem m).mpr (.inr hm), leaf', by rw [hlink.leaves, Function.update_noteq hml, hl'],
        hc, rfl⟩

theorem holds_unlinked (hs : Lists env s) {l : LeafRef} {leaf : Subleaf} (hun : Unlinked s t x l)
    (hl : s.leaves l = some leaf) (hh : leaf.host = some x) (c' : ClientRef) (y : Host) :
    Holds t c' y sub ↔ ¬(c' = leaf.context ∧ y = x) ∧ Holds s c' y sub := by
  have hlx : l ∈ s.subs x := (hs.listed x l).mpr ⟨leaf, hl, hh⟩
  constructor
  · rintro ⟨m, hm, leaf', hl', hc, rfl⟩
    have hml : m ≠ l := by
      rintro rfl
      simp [hun.leaves] at hl'
    rw [hun.leaves, Function.update_noteq hml] at hl'
    rw [mem_of_unlinked hun hml] at hm
    refine ⟨fun ⟨hcc, hy⟩ => hml ?_, m, hm, leaf', hl', hc, rfl⟩
    subst hy
    exact eq_of_context_eq hs hlx hm hl hl' (hc.trans hcc)
  · rintro ⟨hne, m, hm, leaf', hl', hc, rfl⟩
    have hml : m ≠ l := by
      rintro rfl
      rw [hl] at hl'
      cases hl'
      exact hne ⟨hc.symm, Option.some.inj ((host_of_mem hs hl hm).symm.trans hh)⟩
    exact ⟨m, (mem_of_unlinked hun hml y).mpr hm, leaf',
      by rw [hun.leaves, Function.update_noteq hml, hl'], hc, rfl⟩

/-! ## The subscribe walk -/

theorem subAddHierEntry_keeps (ht : Tree s) (p : Option Addr) (k : String)
    (hn : s.hier (p.elim [k] (k :: ·)) = none) :
    (subAddHierEntry env p k s).2.subs = s.subs ∧ (subAddHierEntry env p k s).2.leaves = s.leaves := by
  have hnil := ht.normalDead _ hn
  unfold subAddHierEntry
  split_ifs
  · cases p <;> simpa using hnil
  · exact ⟨rfl, rfl⟩

theorem walkEnd_keeps (ts : List String) :
    ∀ {a : Addr} {s : Broker}, Inv env s → (s.hier a).isSome →
      (walkEnd (addContextWalk env a ts s)).subs = s.subs ∧
        (walkEnd (addContextWalk env a ts s)).leaves = s.leaves := by
  induction ts with
  | nil => exact fun _ _ => ⟨rfl, rfl⟩
  | cons k ts ih =>
    intro a s hs ha
    unfold addContextWalk
    split_ifs
    · exact ⟨rfl, rfl⟩
    split
    · rename_i n hn
      exact ih hs (by simp [hn])
    · rename_i hn
      obtain ⟨h₁, h₂⟩ := inv_subAddHierEntry hs ha hn
      obtain ⟨e₁, e₂⟩ := subAddHierEntry_keeps hs.tree (some a) k hn
      split
      · rename_i b s₁ heq
        rw [heq] at h₁ h₂ e₁ e₂
        obtain ⟨rfl, hb⟩ := h₂ b rfl
        obtain ⟨e₃, e₄⟩ := ih h₁ hb
        exact ⟨e₃.trans e₁, e₄.trans e₂⟩
      · rename_i s₁ heq
        rw [heq] at e₁ e₂
        exact ⟨e₁, e₂⟩

/-- The codes of a subscription that took effect. -/
def Added (rc : Int) : Prop := rc = MosqErr.success ∨ rc = MosqErr.subExists

theorem added_protocolRc (env : Env) (c : ClientRef) {rc : Int} (h : Added rc) :
    Added (protocolRc env c rc) := by
  unfold protocolRc
  split_ifs
  exacts [h, .inl rfl]

theorem subAddContext_of_ok {a b : Addr} {s₁ : Broker} {sub : Subscription} {ts : List String}
    {g : Option String} (hwalk : addContextWalk env a ts s = .ok (b, s₁)) :
    subAddContext env c sub a ts g s = if (env.client c).id.isSome then
      g.elim (subAddNormal env c sub b s₁) (fun g => subAddShared env c sub b g s₁)
    else (MosqErr.success, s₁) := by
  simp only [subAddContext, hwalk]
  cases g <;> rfl

theorem holds_subAddContext_fail (hs : Inv env s) {a : Addr} (ha : (s.hier a).isSome)
    (c : ClientRef) (sub : Subscription) (ts : List String) (g : Option String)
    (hfail : ¬((env.client c).id.isSome ∧ Added (subAddContext env c sub a ts g s).1))
    (c' : ClientRef) (y : Host) (sub' : Subscription) :
    Holds (subAddContext env c sub a ts g s).2 c' y sub' ↔ Holds s c' y sub' := by
  obtain ⟨hw, -⟩ := inv_addContextWalk ts hs ha
  obtain ⟨e₁, e₂⟩ := walkEnd_keeps ts hs ha
  have hwalk : Holds (walkEnd (addContextWalk env a ts s)) c' y sub' ↔ Holds s c' y sub' := by
    simp only [Holds, e₁, e₂]
  rcases h : addContextWalk env a ts s with ⟨rc, t⟩ | ⟨b, s₁⟩ <;>
    simp only [h, walkEnd] at hw hwalk
  · simpa only [subAddContext, h] using hwalk
  · rw [subAddContext_of_ok h] at hfail ⊢
    refine Iff.trans ?_ hwalk
    split_ifs at hfail ⊢ with hid
    · rcases addAt_cases hw c sub b g with ⟨m, -, hrc, -⟩ | ⟨-, hrot⟩ | ⟨-, hrc, -⟩
      · rw [hrc] at hfail
        exact absurd ⟨hid, added_protocolRc env c (.inr rfl)⟩ hfail
      · exact holds_rot hrot
      · rw [hrc] at hfail
        exact absurd ⟨hid, added_protocolRc env c (.inl rfl)⟩ hfail
    · exact Iff.rfl

theorem holds_subAdd_fail (hs : Inv env s) (c : ClientRef) (sub : Subscription)
    (ts : List String) (g : Option String)
    (hfail : ¬((env.client c).id.isSome ∧ Added (subAdd env c sub ts g s).1))
    (c' : ClientRef) (y : Host) (sub' : Subscription) :
    Holds (subAdd env c sub ts g s).2 c' y sub' ↔ Holds s c' y sub' := by
  cases ts with
  | nil => exact Iff.rfl
  | cons t0 rest =>
    by_cases hlong : t0.length > uint16Max
    · simp only [subAdd, if_pos hlong]
    cases hn : s.hier [t0] with
    | some n =>
      have e : subAdd env c sub (t0 :: rest) g s =
          subAddContext env c sub [t0] (t0 :: rest) g s := by
        simp only [subAdd, if_neg hlong, hn]
      rw [e] at hfail ⊢
      exact holds_subAddContext_fail hs (by simp [hn]) c sub _ g hfail c' y sub'
    | none =>
      obtain ⟨h₁, h₂⟩ := inv_subAddHierEntry_root hs hn
      have hroot : (subAddHierEntry env none t0 s).2.subs = s.subs ∧
          (subAddHierEntry env none t0 s).2.leaves = s.leaves :=
        subAddHierEntry_keeps hs.tree none t0 hn
      rcases he : subAddHierEntry env none t0 s with ⟨_ | a, s₀⟩ <;> rw [he] at h₁ h₂ hroot <;>
        obtain ⟨e₁, e₂⟩ : s₀.subs = s.subs ∧ s₀.leaves = s.leaves := hroot
      · have e : subAdd env c sub (t0 :: rest) g s = (MosqErr.nomem, s₀) := by
          simp only [subAdd, if_neg hlong, hn, he]
        simp only [e, Holds, e₁, e₂]
      · obtain ⟨rfl, ha⟩ := h₂ _ rfl
        have e : subAdd env c sub (t0 :: rest) g s =
            subAddContext env c sub [t0] (t0 :: rest) g s₀ := by
          simp only [subAdd, if_neg hlong, hn, he]
        rw [e] at hfail ⊢
        refine (holds_subAddContext_fail h₁ ha c sub _ g hfail c' y sub').trans ?_
        simp only [Holds, e₁, e₂]

theorem storeOf_subAdd_ok (hids : IdsDistinct env) (hs : Inv env s) {ts : List String}
    {g : Option String} (hid : (env.client c).id.isSome) (hrc : Added (subAdd env c sub ts g s).1) :
    storeOf (subAdd env c sub ts g s).2 =
      (storeOf s).subscribe c (Host.of (filterNode ts) g) sub := by
  have hs' := inv_subAdd hs c sub ts g
  obtain ⟨s₁, hs₁, -, e₁, e₂, -, -, -, -, heq⟩ := subAdd_reaches hs hid hrc
  have hsame : ∀ c' y sub', Holds s₁ c' y sub' ↔ Holds s c' y sub' := fun _ _ _ => by
    simp only [Holds, e₁, e₂]
  have hsid : sameId env c s₁ = sameId env c s := by
    funext m
    simp only [sameId, e₂]
  rw [heq] at hrc hs' ⊢
  generalize filterNode ts = b at hrc hs' ⊢
  refine storeOf_eq hs'.lists fun c' y sub' => ?_
  simp only [Store.subscribe]
  rcases addAt_cases hs₁ c sub b g with ⟨m, hm, -, hr⟩ | ⟨hno, -⟩ |
    ⟨hf, -, t, l, subs, -, hlink, hrot, -⟩
  · -- the client's leaf, updated in place
    obtain ⟨leaf, hleaf, hctx⟩ := context_of_sameId hids (List.find?_some hm)
    have hmx := List.mem_of_find?_eq_some hm
    have hold : storeOf s c (Host.of b g) = some (subscriptionOf leaf) :=
      (storeOf_eq_some hs.lists).mpr ((hsame _ _ _).mp ⟨m, hmx, leaf, hleaf, hctx, rfl⟩)
    rw [hr, holds_modifyLeaf hs₁.lists hmx hleaf _ rfl, hctx]
    split_ifs with hcy
    · rw [hold]
      simp [subscriptionOf, eq_comm]
    · rw [hsame, storeOf_eq_some hs.lists]
  · exact absurd hno (fail_ne_ok hrc).1
  · -- a new leaf, at the end of the list
    have hnone : storeOf s c (Host.of b g) = none := by
      rw [storeOf_eq_none hs.lists]
      rintro sub'' ⟨l', hl', leaf', hleaf', hc', -⟩
      have := find_sameId_self hs.lists hid hl' (by simp [Broker.leafOf, hleaf', hc'])
      rw [← hsid, ← e₁, hf] at this
      cases this
    rw [holds_rot hrot, holds_linked hs₁.lists hlink, hsame]
    split_ifs with hcy
    · obtain ⟨rfl, rfl⟩ := hcy
      rw [hnone, or_iff_left fun h => (storeOf_eq_none hs.lists).mp hnone sub' h]
      cases sub
      simp [subscriptionOf, eq_comm]
    · rw [or_iff_right fun h => hcy ⟨h.1, h.2.1⟩, storeOf_eq_some hs.lists]

theorem holds_subAdd_of_ne (hs : Inv env s) (c : ClientRef) (sub : Subscription)
    (ts : List String) (g : Option String) {y : Host} (hy : y ≠ Host.of (filterNode ts) g)
    (c' : ClientRef) (sub' : Subscription) :
    Holds (subAdd env c sub ts g s).2 c' y sub' ↔ Holds s c' y sub' := by
  by_cases hok : (env.client c).id.isSome ∧ Added (subAdd env c sub ts g s).1
  · obtain ⟨s₁, hs₁, -, e₁, e₂, -, -, -, -, heq⟩ := subAdd_reaches hs hok.1 hok.2
    have hsame : Holds s₁ c' y sub' ↔ Holds s c' y sub' := by simp only [Holds, e₁, e₂]
    rw [heq] at hok ⊢
    refine Iff.trans ?_ hsame
    rcases addAt_cases hs₁ c sub (filterNode ts) g with ⟨m, hm, -, hr⟩ | ⟨hno, -⟩ |
      ⟨-, -, t, l, subs, -, hlink, hrot, -⟩
    · have hmx := List.mem_of_find?_eq_some hm
      obtain ⟨leaf, hleaf, -⟩ := (hs₁.lists.listed _ m).mp hmx
      rw [hr, holds_modifyLeaf hs₁.lists hmx hleaf _ rfl, if_neg fun h => hy h.2]
    · exact absurd hno (fail_ne_ok hok.2).1
    · rw [holds_rot hrot, holds_linked hs₁.lists hlink]
      exact or_iff_right fun h => hy h.2.1
  · exact holds_subAdd_fail hs c sub ts g hok c' y sub'

theorem storeOf_subAdd (hids : IdsDistinct env) (hs : Inv env s) (c : ClientRef)
    (sub : Subscription) (ts : List String) (g : Option String) :
    storeOf (subAdd env c sub ts g s).2 =
      effect env (.subAdd c sub ts g) (subAdd env c sub ts g s).1 (storeOf s) := by
  simp only [effect]
  split_ifs with hok
  · exact storeOf_subAdd_ok hids hs hok.1 hok.2
  · exact storeOf_eq (inv_subAdd hs c sub ts g).lists fun c' y sub' =>
      (holds_subAdd_fail hs c sub ts g hok c' y sub').trans (storeOf_eq_some hs.lists).symm

theorem storeOf_subRemove (hs : Inv env s) (c : ClientRef) (ts : List String)
    (g : Option String) (reason : UInt8) :
    storeOf (subRemove env c ts g reason s).2.2 =
      (storeOf s).unsubscribe c (Host.of (filterNode ts) g) := by
  have hs' := inv_subRemove hs c ts g reason
  obtain ⟨H, hH⟩ := subRemove_eq hs.tree c ts g reason
  rw [hH] at hs' ⊢
  refine storeOf_eq hs'.lists fun c' y sub' => ?_
  show Holds (subRemoveRecurse env c g (filterNode ts) [] mqttRcNoSubscriptionExisted s).2.2
    c' y sub' ↔ _
  simp only [Store.unsubscribe]
  rcases removeAt_cases hs c (filterNode ts) mqttRcNoSubscriptionExisted g with
    ⟨hf, hr⟩ | ⟨l, leaf, -, hl, rfl, hh, t, hun, hrot, -⟩
  · rw [hr]
    split_ifs with hcy
    · obtain ⟨rfl, rfl⟩ := hcy
      have hnone : storeOf s c' (Host.of (filterNode ts) g) = none := by simp [storeOf, hf]
      simp [← storeOf_eq_some hs.lists, hnone]
    · exact (storeOf_eq_some hs.lists).symm
  · rw [holds_rot hrot, holds_unlinked hs.lists hun hl hh]
    split_ifs with hcy
    · simp [hcy]
    · simp [hcy, storeOf_eq_some hs.lists]

theorem storeOf_subCleanSession (hs : Inv env s) (c : ClientRef) :
    storeOf (subCleanSession env c s).2 = (storeOf s).clean c := by
  have hcl := cleaned_subCleanSession hs c
  refine storeOf_eq (inv_subCleanSession hs c).lists fun c' y sub' => ?_
  simp only [Store.clean]
  split_ifs with hc
  · subst hc
    simp only [reduceCtorEq, iff_false]
    rintro ⟨l, -, leaf, hl, hc, -⟩
    exact context_ne_of_subCleanSession hs c' hl hc
  · rw [storeOf_eq_some hs.lists]
    constructor
    · rintro ⟨l, hm, leaf, hl, rfl, rfl⟩
      have hl₀ := hcl.leaves l leaf hl
      exact ⟨l, ((hcl.others l leaf hl₀ hc).2 y).mp hm, leaf, hl₀, rfl, rfl⟩
    · rintro ⟨l, hm, leaf, hl, rfl, rfl⟩
      obtain ⟨hl', hmem⟩ := hcl.others l leaf hl hc
      exact ⟨l, (hmem y).mpr hm, leaf, hl', rfl, rfl⟩

theorem storeOf_rot (hs : Lists env s) (h : Rot s t) : storeOf t = storeOf s :=
  storeOf_eq (hs.congr h.subs_perm (fun l => by rw [h.leaves]) h.allocs) fun _ _ _ =>
    (holds_rot h).trans (storeOf_eq_some hs).symm

theorem storeOf_run (hids : IdsDistinct env) (hs : Inv env s) (op : Op) :
    storeOf (op.run env s).2 = effect env op (op.run env s).1 (storeOf s) := by
  cases op with
  | subAdd c sub ts g => exact storeOf_subAdd hids hs c sub ts g
  | subRemove c ts g r => exact storeOf_subRemove hs c ts g r
  | subCleanSession c => exact storeOf_subCleanSession hs c
  | subMessagesQueue src topic ts q r m =>
    exact storeOf_rot hs.lists (subMessagesQueue_rot env topic q r m src ts s)

/-! ## Runs -/

/-- A run of the engine from a state before any subscription, with beside it the map that
the return codes of its calls describe. -/
inductive Traced (env : Env) : Broker → Store → Prop
  | init {s : Broker} : Initial s → Traced env s Store.empty
  | step {s : Broker} {S : Store} (op : Op) : Traced env s S →
      Traced env (op.run env s).2 (effect env op (op.run env s).1 S)

theorem Traced.reachable {S : Store} (h : Traced env s S) : Reachable env (fun _ _ => True) s := by
  induction h with
  | init hi => exact .init hi
  | step op _ ih => exact .step op ih trivial

/-- The engine refines the map of subscriptions: along every run, whatever the allocator
and the collaborators do, the subscriptions the trie's leaves record are exactly those
the calls' return codes describe, when distinct clients have distinct ids. -/
theorem storeOf_traced (hids : IdsDistinct env) {S : Store} (h : Traced env s S) :
    storeOf s = S := by
  induction h with
  | init hi =>
    funext c x
    simp [storeOf, hi.lists, Store.empty]
  | step op h ih => rw [storeOf_run hids (inv_reachable h.reachable) op, ih]

theorem storeOf_traced_subscribe :
    let op := Op.subAdd 1 ⟨"a", 0, 0⟩ ["", "a"] none
    let s := (op.run (plainEnv false) emptyBroker).2
    let S : Store := effect (plainEnv false) op (op.run (plainEnv false) emptyBroker).1 Store.empty
    IdsDistinct (plainEnv false) ∧ Traced (plainEnv false) s S ∧ storeOf s = S :=
  ⟨idsDistinct_plainEnv false, .step _ (.init initial_emptyBroker),
    storeOf_traced (idsDistinct_plainEnv false) (.step _ (.init initial_emptyBroker))⟩

example : storeOf ((Op.subAdd 1 ⟨"a", 0, 0⟩ ["", "a"] none).run (plainEnv false) emptyBroker).2
    1 (.normal (filterNode ["", "a"])) = some ⟨"a", 0, 0⟩ := by
  decide

end MosquittoSubs.Refinement
