import MosquittoSubs.Preservation

set_option autoImplicit false

/-!
# What a subscription does

`sub__add` walks down to the node of its filter, making the nodes that are missing, and
there either updates in place the leaf of a client with the subscriber's id or links a new
leaf at the end of the list and gives it the first empty slot of the subscriber's array.
With distinct client ids, the leaf updated in place is the subscriber's own.
-/

namespace MosquittoSubs.SubscribeSpec
open Model SysTree Subscribe Run Frame Invariant Preservation

/-- The node of the filter with the levels `ts`: below the `db.subs` root of its first level,
one node per level, the first level included. -/
def filterNode : List String → Addr
  | [] => []
  | t0 :: rest => (t0 :: rest).reverse ++ [t0]

/-- Distinct clients have distinct ids, where they have one. -/
def IdsDistinct (env : Env) : Prop :=
  ∀ c c' i, (env.client c).id = some i → (env.client c').id = some i → c = c'

/-- The slot a new leaf takes, in the words of the spec: the first empty slot of the array,
or a new last slot when no slot is empty. -/
def FirstEmptySlot (xs ys : List (Option LeafRef)) (l : LeafRef) : Prop :=
  (∃ i, xs[i]? = some none ∧ (∀ j < i, xs[j]? ≠ some none) ∧ ys = xs.set i (some l)) ∨
    (none ∉ xs ∧ ys = xs ++ [some l])

variable {env : Env} {s s' : Broker}

theorem idsDistinct_plainEnv (sys : Bool) : IdsDistinct (plainEnv sys) := by
  intro c c' i h h'
  simp only [plainEnv] at h h'
  split_ifs at h h' <;> simp_all
  all_goals rw [← h] at h'; exact absurd h' (by decide)

/-! ## The slot -/

theorem assignSlot_first {l : LeafRef} :
    ∀ {xs ys : List (Option LeafRef)}, assignSlot l xs = some ys →
      ∃ i, xs[i]? = some none ∧ (∀ j < i, xs[j]? ≠ some none) ∧ ys = xs.set i (some l)
  | [], _, h => by simp [assignSlot] at h
  | none :: xs, ys, h => by
    simp only [assignSlot, Option.some.injEq] at h
    exact ⟨0, by simp, fun j hj => absurd hj (Nat.not_lt_zero j), by simp [h]⟩
  | some x :: xs, ys, h => by
    simp only [assignSlot, Option.map_eq_some'] at h
    obtain ⟨zs, hz, rfl⟩ := h
    obtain ⟨i, hi, hlt, rfl⟩ := assignSlot_first hz
    refine ⟨i + 1, by simpa using hi, fun j hj => ?_, by simp⟩
    cases j with
    | zero => simp
    | succ j => simpa using hlt j (by omega)

theorem assignSlot_none {l : LeafRef} :
    ∀ {xs : List (Option LeafRef)}, assignSlot l xs = none → none ∉ xs
  | [], _ => by simp
  | none :: xs, h => by simp [assignSlot] at h
  | some x :: xs, h => by
    simp only [assignSlot, Option.map_eq_none'] at h
    simpa using assignSlot_none h

theorem firstEmptySlot_of_assign {l : LeafRef} {xs subs : List (Option LeafRef)}
    (h : assignSlot l xs = some subs ∨ assignSlot l xs = none ∧ subs = xs ++ [some l]) :
    FirstEmptySlot xs subs l :=
  h.imp assignSlot_first fun ⟨h₁, h₂⟩ => ⟨assignSlot_none h₁, h₂⟩

/-! ## Finding the subscriber's leaf -/

theorem context_of_sameId (hids : IdsDistinct env) {c : ClientRef} {l : LeafRef}
    (h : sameId env c s l = true) : ∃ leaf, s.leaves l = some leaf ∧ leaf.context = c := by
  unfold sameId at h
  split at h
  · rename_i leaf hl
    split at h
    · rename_i i hi
      exact ⟨leaf, hl, hids _ _ i hi (by simpa using h)⟩
    · cases h
  · cases h

theorem find_sameId_self (hs : Lists env s) {c : ClientRef} {x : Host} {l : LeafRef}
    (hid : (env.client c).id.isSome) (hl : l ∈ s.subs x) (hc : s.leafOf c l = true) :
    (s.subs x).find? (sameId env c s) = some l := by
  obtain ⟨i, hi⟩ := Option.isSome_iff_exists.mp hid
  obtain ⟨leaf, hleaf⟩ : ∃ leaf, s.leaves l = some leaf := by
    cases h : s.leaves l <;> simp_all [Broker.leafOf]
  have hctx : leaf.context = c := by simpa [Broker.leafOf, hleaf] using hc
  have hsame : sameId env c s l = true := by simp [sameId, hleaf, hctx, hi]
  obtain ⟨m, hm⟩ := Option.isSome_iff_exists.mp (List.find?_isSome.mpr ⟨l, hl, hsame⟩)
  rw [hm]
  by_contra hne
  have hmid : leafId env s m = some i := by
    have := List.find?_some hm
    unfold sameId at this
    split at this
    · rename_i leaf' hl'
      split at this
      · rename_i j hj
        simp only [hi, Option.some.injEq, decide_eq_true_eq] at this
        simp [leafId, hl', hj, this]
      · cases this
    · cases this
  have hlid : leafId env s l = some i := by simp [leafId, hleaf, hctx, hi]
  exact (hs.ids x).forall (fun _ _ h => Ne.symm h) (List.mem_of_find?_eq_some hm) hl
    (fun e => hne (congrArg some e)) (hmid.trans hlid.symm)

theorem filter_leafOf_single (hs : Lists env s) {c : ClientRef} {x : Host} {l : LeafRef}
    (hl : l ∈ s.subs x) (hc : s.leafOf c l = true) : (s.subs x).filter (s.leafOf c) = [l] := by
  have hp := (hs.ids x).filter (s.leafOf c)
  have hsame : ∀ m ∈ (s.subs x).filter (s.leafOf c), leafId env s m = leafId env s l := by
    intro m hm
    have hmc := (List.mem_filter.mp hm).2
    unfold Broker.leafOf at hmc hc
    split at hmc <;> split at hc <;> simp_all [leafId]
  have hmem : l ∈ (s.subs x).filter (s.leafOf c) := List.mem_filter.mpr ⟨hl, hc⟩
  match (s.subs x).filter (s.leafOf c), hp, hsame, hmem with
  | [], _, _, hmem => simp at hmem
  | [m], _, _, hmem => rw [List.mem_singleton.mp hmem]
  | m₁ :: m₂ :: _, hp, hsame, _ =>
    exact absurd ((hsame m₁ (by simp)).trans (hsame m₂ (by simp)).symm)
      (List.rel_of_pairwise_cons hp (by simp))

/-! ## The walk down the trie -/

theorem hier_of_append (ht : Tree s) (xs : List String) {a : Addr} (ha : a ≠ [])
    (h : (s.hier (xs ++ a)).isSome) : (s.hier a).isSome := by
  induction xs with
  | nil => exact h
  | cons x xs ih =>
    refine ih ?_
    by_contra hn
    have := ht.hier_child_none (Option.not_isSome_iff_eq_none.mp hn) (by simp [ha]) x
    simp [this] at h

theorem addContextWalk_ok (ts : List String) :
    ∀ {a : Addr} {s : Broker} {b : Addr} {s' : Broker}, Inv env s → (s.hier a).isSome →
      addContextWalk env a ts s = .ok (b, s') →
      b = ts.reverse ++ a ∧ s'.subs = s.subs ∧ s'.leaves = s.leaves ∧ s'.contexts = s.contexts ∧
        s'.subscriptionCount = s.subscriptionCount ∧
        s'.sharedSubscriptionCount = s.sharedSubscriptionCount ∧ ((s.hier b).isSome → s' = s) := by
  induction ts with
  | nil => rintro a s b s' - - ⟨⟩; exact ⟨rfl, rfl, rfl, rfl, rfl, rfl, fun _ => rfl⟩
  | cons t ts ih =>
    intro a s b s' hs ha h
    unfold addContextWalk at h
    split_ifs at h
    split at h
    · rename_i n hn
      obtain ⟨hb, h₁⟩ := ih hs (by simp [hn]) h
      exact ⟨by simp [hb], h₁⟩
    · rename_i hn
      have hi := inv_subAddHierEntry hs ha hn
      split at h
      · rename_i b' s₁ heq
        rw [heq] at hi
        obtain ⟨rfl, hb'⟩ := hi.2 b' rfl
        obtain ⟨hb, e₁, e₂, e₃, e₄, e₅, -⟩ := ih hi.1 hb' h
        have hsubs : s₁.subs = s.subs := by
          unfold subAddHierEntry at heq
          split_ifs at heq <;> cases heq
          simp [hs.tree.normalDead _ hn]
        have ha0 : a ≠ [] := by
          rintro rfl
          simp [hs.tree.root] at ha
        unfold subAddHierEntry at heq
        split_ifs at heq <;> cases heq
        refine ⟨by simp [hb], e₁.trans hsubs, e₂, e₃, e₄, e₅, fun hbs => ?_⟩
        have := hier_of_append hs.tree ts.reverse (List.cons_ne_nil t a)
          (by simpa [hb] using hbs)
        simp [hn] at this
      · cases h

theorem subAdd_reaches (hs : Inv env s) {c : ClientRef} {sub : Subscription} {ts : List String}
    {g : Option String} (hid : (env.client c).id.isSome)
    (hrc : (subAdd env c sub ts g s).1 = MosqErr.success ∨
      (subAdd env c sub ts g s).1 = MosqErr.subExists) :
    ∃ s₁, Inv env s₁ ∧ (s₁.hier (filterNode ts)).isSome ∧ s₁.subs = s.subs ∧
      s₁.leaves = s.leaves ∧ s₁.contexts = s.contexts ∧
      s₁.subscriptionCount = s.subscriptionCount ∧
      s₁.sharedSubscriptionCount = s.sharedSubscriptionCount ∧
      ((s.hier (filterNode ts)).isSome → s₁ = s) ∧
      subAdd env c sub ts g s = g.elim (subAddNormal env c sub (filterNode ts) s₁)
        fun g => subAddShared env c sub (filterNode ts) g s₁ := by
  -- the walk from the root, whether the root was there or has just been made
  have hctx : ∀ {s₀ : Broker} {t0 : String} {rest : List String}, Inv env s₀ →
      (s₀.hier [t0]).isSome →
      ((subAddContext env c sub [t0] (t0 :: rest) g s₀).1 = MosqErr.success ∨
        (subAddContext env c sub [t0] (t0 :: rest) g s₀).1 = MosqErr.subExists) →
      ∃ s₁, Inv env s₁ ∧ (s₁.hier (filterNode (t0 :: rest))).isSome ∧ s₁.subs = s₀.subs ∧
        s₁.leaves = s₀.leaves ∧ s₁.contexts = s₀.contexts ∧
        s₁.subscriptionCount = s₀.subscriptionCount ∧
        s₁.sharedSubscriptionCount = s₀.sharedSubscriptionCount ∧
        ((s₀.hier (filterNode (t0 :: rest))).isSome → s₁ = s₀) ∧
        subAddContext env c sub [t0] (t0 :: rest) g s₀ =
          g.elim (subAddNormal env c sub (filterNode (t0 :: rest)) s₁)
            fun g => subAddShared env c sub (filterNode (t0 :: rest)) g s₁ := by
    intro s₀ t0 rest hs₀ ha hrc
    obtain ⟨hw, hb⟩ := inv_addContextWalk (t0 :: rest) hs₀ ha
    cases hwalk : addContextWalk env [t0] (t0 :: rest) s₀ with
    | error r =>
      obtain ⟨rc, t⟩ := r
      have e : subAddContext env c sub [t0] (t0 :: rest) g s₀ = (rc, t) := by
        simp only [subAddContext, hwalk]
      rw [e] at hrc
      rcases addContextWalk_error _ hwalk with rfl | rfl
      · exact absurd rfl (fail_ne_ok hrc).2
      · exact absurd rfl (fail_ne_ok hrc).1
    | ok r =>
      obtain ⟨b, s₁⟩ := r
      rw [hwalk] at hw
      obtain ⟨rfl, e₁, e₂, e₃, e₄, e₅, e₆⟩ := addContextWalk_ok (t0 :: rest) hs₀ ha hwalk
      refine ⟨s₁, hw, hb _ _ hwalk, e₁, e₂, e₃, e₄, e₅, e₆, ?_⟩
      simp only [subAddContext, hwalk, if_pos hid]
      cases g <;> rfl
  cases ts with
  | nil =>
    simp only [subAdd] at hrc
    exact absurd rfl (fail_ne_ok hrc).2
  | cons t0 rest =>
    have hlong : ¬ t0.length > uint16Max := fun hlong => by
      simp only [subAdd, if_pos hlong] at hrc
      exact (fail_ne_ok hrc).2 rfl
    cases hn : s.hier [t0] with
    | some n =>
      have e : subAdd env c sub (t0 :: rest) g s = subAddContext env c sub [t0] (t0 :: rest) g s := by
        simp only [subAdd, if_neg hlong, hn]
      rw [e] at hrc ⊢
      exact hctx hs (by simp [hn]) hrc
    | none =>
      obtain ⟨h₁, h₂⟩ := inv_subAddHierEntry_root hs hn
      cases he : subAddHierEntry env none t0 s with
      | mk r s₀ =>
        rw [he] at h₁ h₂
        cases r with
        | none =>
          have e : subAdd env c sub (t0 :: rest) g s = (MosqErr.nomem, s₀) := by
            simp only [subAdd, if_neg hlong, hn, he]
          rw [e] at hrc
          exact absurd rfl (fail_ne_ok hrc).1
        | some a =>
          obtain ⟨rfl, ha⟩ := h₂ _ rfl
          have e : subAdd env c sub (t0 :: rest) g s =
              subAddContext env c sub [t0] (t0 :: rest) g s₀ := by
            simp only [subAdd, if_neg hlong, hn, he]
          rw [e] at hrc ⊢
          obtain ⟨s₁, hs₁, hb, e₁, e₂, e₃, e₄, e₅, -, he'⟩ := hctx h₁ ha hrc
          unfold subAddHierEntry at he
          split_ifs at he <;> cases he
          refine ⟨s₁, hs₁, hb, by simp [e₁, hs.tree.normalDead _ hn], e₂, e₃, e₄, e₅,
            fun hbs => ?_, he'⟩
          have := hier_of_append hs.tree ((t0 :: rest).reverse) (List.cons_ne_nil t0 []) hbs
          simp [hn] at this

/-! ## The leaf at the node -/

theorem addAt_cases (hs : Inv env s) (c : ClientRef) (sub : Subscription) (b : Addr)
    (g : Option String) :
    let r := g.elim (subAddNormal env c sub b s) fun g => subAddShared env c sub b g s
    (∃ m, (s.subs (Host.of b g)).find? (sameId env c s) = some m ∧
      r.1 = protocolRc env c MosqErr.subExists ∧
      r.2 = s.modifyLeaf m fun leaf =>
        { leaf with identifier := sub.identifier, subscriptionOptions := sub.options }) ∨
    (r.1 = MosqErr.nomem ∧ Rot s r.2) ∨
    ((s.subs (Host.of b g)).find? (sameId env c s) = none ∧
      r.1 = protocolRc env c MosqErr.success ∧
      ∃ t l subs, (assignSlot l (s.contexts c).subs = some subs ∨
          assignSlot l (s.contexts c).subs = none ∧ subs = (s.contexts c).subs ++ [some l]) ∧
        Linked s t (Host.of b g) l ⟨c, sub.identifier, sub.options, sub.topicFilter, some b, g⟩
          ⟨subs, (s.contexts c).subsCount + 1⟩ ∧
        Rot t r.2 ∧ r.2.subs (Host.of b g) = t.subs (Host.of b g)) := by
  cases g with
  | none =>
    simp only [Option.elim]
    rcases h : subAddNormal env c sub b s with ⟨rc, s'⟩
    rcases subAddNormal_cases hs.lists h with hin | hno | ⟨hf, hrc, t, subs, hslot, hlink, -, -, -, hrot⟩
    · exact .inl hin
    · exact .inr (.inl hno)
    · exact .inr (.inr ⟨hf, hrc, t, s.allocs, subs, hslot, hlink, hrot, hrot.normal b⟩)
  | some g =>
    simp only [Option.elim]
    rcases h : subAddShared env c sub b g s with ⟨rc, s'⟩
    rcases subAddShared_cases hs h with hin | hno | ⟨hf, hrc, l, subs, hslot, hlink, -, -, -⟩
    · exact .inl hin
    · exact .inr (.inl hno)
    · exact .inr (.inr ⟨hf, hrc, s', l, subs, hslot, hlink, Rot.refl _, rfl⟩)

theorem mem_of_linked {t : Broker} {x : Host} {l : Nat} {leaf : Subleaf} {ctx : Context}
    (hlink : Linked s t x l leaf ctx) {m : LeafRef} (hm : m ≠ l) (y : Host) :
    m ∈ t.subs y ↔ m ∈ s.subs y := by
  rw [hlink.subs, Function.update_apply]
  split_ifs with hy
  · subst hy
    simp [hm]
  · rfl

theorem subs_subAdd_ne_nil (hs : Inv env s) {c : ClientRef} {sub : Subscription}
    {ts : List String} {g : Option String} (hid : (env.client c).id.isSome)
    (hrc : (subAdd env c sub ts g s).1 = MosqErr.success ∨
      (subAdd env c sub ts g s).1 = MosqErr.subExists) :
    (subAdd env c sub ts g s).2.subs (Host.of (filterNode ts) g) ≠ [] := by
  obtain ⟨s₁, hs₁, -, -, -, -, -, -, -, heq⟩ := subAdd_reaches hs hid hrc
  rw [heq] at hrc ⊢
  rcases addAt_cases hs₁ c sub (filterNode ts) g with ⟨m, hm, -, hr⟩ | ⟨hno, -⟩ |
    ⟨-, -, t, l, subs, -, hlink, -, hsx⟩
  · rw [hr]
    exact List.ne_nil_of_mem (List.mem_of_find?_eq_some hm)
  · exact absurd hno (fail_ne_ok hrc).1
  · rw [hsx, hlink.subs, Function.update_same]
    simp

/-- A subscription by a client with an id that succeeds leaves one leaf of the client at the
node (or in the group) of its filter, with the subscription's options and identifier. If the
client had a leaf there, that leaf is updated in place and nothing else changes; otherwise a
new leaf ends the list and takes the first empty slot of the client's array, or a new last
one. Every other leaf keeps its lists and its fields. -/
theorem subAdd_one_leaf {ok : Op → Int → Prop} (hids : IdsDistinct env) (h : Reachable env ok s)
    (c : ClientRef) (sub : Subscription) (ts : List String) (g : Option String)
    (hid : (env.client c).id.isSome)
    (hrc : (subAdd env c sub ts g s).1 = MosqErr.success ∨
      (subAdd env c sub ts g s).1 = MosqErr.subExists) :
    let s' := (subAdd env c sub ts g s).2
    let x := Host.of (filterNode ts) g
    (∃ l leaf, (s'.subs x).filter (s'.leafOf c) = [l] ∧ s'.leaves l = some leaf ∧
      leaf.subscriptionOptions = sub.options ∧ leaf.identifier = sub.identifier) ∧
    (∀ l ∈ s.subs x, s.leafOf c l = true →
      s' = s.modifyLeaf l (fun leaf =>
        { leaf with identifier := sub.identifier, subscriptionOptions := sub.options }) ∧
      (subAdd env c sub ts g s).1 =
        if (env.client c).protocol = .mqtt31 ∨ (env.client c).protocol = .mqtt5 then
          MosqErr.subExists else MosqErr.success) ∧
    ((∀ l ∈ s.subs x, s.leafOf c l = false) →
      (subAdd env c sub ts g s).1 = MosqErr.success ∧
      ∃ l, s'.subs x = s.subs x ++ [l] ∧ FirstEmptySlot (s.contexts c).subs (s'.contexts c).subs l) ∧
    (∀ l leaf, s.leaves l = some leaf → (leaf.context ≠ c ∨ leaf.host ≠ some x) →
      s'.leaves l = some leaf ∧ ∀ y, l ∈ s'.subs y ↔ l ∈ s.subs y) := by
  have hs := inv_reachable h
  have hs' := inv_subAdd hs c sub ts g
  obtain ⟨s₁, hs₁, -, e₁, e₂, e₃, -, -, hsame, heq⟩ := subAdd_reaches hs hid hrc
  have hsid : sameId env c s₁ = sameId env c s := by
    funext m
    simp only [sameId, e₂]
  rw [heq] at hrc hs' ⊢
  dsimp only
  generalize filterNode ts = b at hsame hs' hrc ⊢
  rcases addAt_cases hs₁ c sub b g with ⟨m, hm, hrc', hr⟩ | ⟨hrc', -⟩ |
    ⟨hf, hrc', t, l, subs, hslot, hlink, hrot, hsx⟩
  · -- in place: the leaf found is the client's own, in an existing node
    rw [hsid, e₁] at hm
    obtain ⟨leaf, hleaf, hctx⟩ := context_of_sameId hids (List.find?_some hm)
    have hmx := List.mem_of_find?_eq_some hm
    have hmc : s.leafOf c m = true := by simp [Broker.leafOf, hleaf, hctx]
    obtain ⟨leaf', hl', hh⟩ := (hs.lists.listed _ m).mp hmx
    rw [hleaf] at hl'
    cases hl'
    obtain rfl : s₁ = s := hsame (by simpa using hier_of_listed hs.tree hs.lists hleaf hh)
    rw [hr] at hs' ⊢
    refine ⟨⟨m, { leaf with identifier := sub.identifier, subscriptionOptions := sub.options },
      filter_leafOf_single hs'.lists (by simpa using hmx) (by simp [Broker.leafOf, hleaf, hctx]),
      by simp [hleaf], rfl, rfl⟩, fun l hl hc => ?_, fun hno => absurd (hno m hmx) (by simp [hmc]),
      fun l leaf' hl hne => ?_⟩
    · have := find_sameId_self hs.lists hid hl hc
      rw [hm] at this
      cases this
      exact ⟨rfl, by rw [hrc', protocolRc]⟩
    · have hlm : l ≠ m := by
        rintro rfl
        rw [hleaf] at hl
        cases hl
        exact hne.elim (· hctx) (· hh)
      exact ⟨by simp [Function.update_noteq hlm, hl], fun _ => Iff.rfl⟩
  · exact absurd hrc' (fail_ne_ok hrc).1
  · -- a new leaf
    generalize g.elim (subAddNormal env c sub b s₁) (fun g => subAddShared env c sub b g s₁) = R at *
    rw [hsid, e₁] at hf
    have hfresh : s₁.leaves l = none := hs₁.lists.fresh l hlink.fresh
    have hnew : R.2.leaves l = some ⟨c, sub.identifier, sub.options, sub.topicFilter, some b, g⟩ := by
      rw [hrot.leaves, hlink.leaves]
      simp
    have hlx : l ∈ R.2.subs (Host.of b g) := by
      rw [hsx, hlink.subs]
      simp
    refine ⟨⟨l, _, filter_leafOf_single hs'.lists hlx (by simp [Broker.leafOf, hnew]), hnew, rfl, rfl⟩,
      fun l' hl' hc => ?_, fun _ => ⟨?_, l, ?_, ?_⟩, fun l' leaf' hl' _ => ?_⟩
    · have := find_sameId_self hs.lists hid hl' hc
      rw [hf] at this
      cases this
    · rw [hrc', protocolRc]
      split_ifs <;> rfl
    · rw [hsx, hlink.subs, e₁]
      simp
    · have hctx : R.2.contexts c = ⟨subs, (s₁.contexts c).subsCount + 1⟩ := by
        rw [hrot.contexts, hlink.contexts]
        simp
      rw [hctx, ← e₃]
      exact firstEmptySlot_of_assign hslot
    · have hne : l' ≠ l := by
        rintro rfl
        rw [← e₂, hfresh] at hl'
        cases hl'
      refine ⟨by rw [hrot.leaves, hlink.leaves, Function.update_noteq hne, e₂, hl'], fun y => ?_⟩
      rw [hrot.mem_subs, mem_of_linked hlink hne, e₁]

theorem subAdd_one_leaf_empty :
    let s' := (subAdd (plainEnv false) 1 ⟨"a", 0, 0⟩ ["", "a"] none emptyBroker).2
    let x := Host.of (filterNode ["", "a"]) none
    (∃ l leaf, (s'.subs x).filter (s'.leafOf 1) = [l] ∧ s'.leaves l = some leaf ∧
      leaf.subscriptionOptions = 0 ∧ leaf.identifier = 0) ∧
    (∀ l ∈ emptyBroker.subs x, emptyBroker.leafOf 1 l = true →
      s' = emptyBroker.modifyLeaf l (fun leaf =>
        { leaf with identifier := 0, subscriptionOptions := 0 }) ∧
      (subAdd (plainEnv false) 1 ⟨"a", 0, 0⟩ ["", "a"] none emptyBroker).1 =
        if ((plainEnv false).client 1).protocol = .mqtt31 ∨
            ((plainEnv false).client 1).protocol = .mqtt5 then
          MosqErr.subExists else MosqErr.success) ∧
    ((∀ l ∈ emptyBroker.subs x, emptyBroker.leafOf 1 l = false) →
      (subAdd (plainEnv false) 1 ⟨"a", 0, 0⟩ ["", "a"] none emptyBroker).1 = MosqErr.success ∧
      ∃ l, s'.subs x = emptyBroker.subs x ++ [l] ∧
        FirstEmptySlot (emptyBroker.contexts 1).subs (s'.contexts 1).subs l) ∧
    (∀ l leaf, emptyBroker.leaves l = some leaf → (leaf.context ≠ 1 ∨ leaf.host ≠ some x) →
      s'.leaves l = some leaf ∧ ∀ y, l ∈ s'.subs y ↔ l ∈ emptyBroker.subs y) :=
  subAdd_one_leaf (idsDistinct_plainEnv false)
    (@Reachable.init (plainEnv false) (fun _ _ => True) _ initial_emptyBroker) 1 ⟨"a", 0, 0⟩
    ["", "a"] none (by decide) (.inl (by decide))

/-- A subscription whose second allocation, the node below the new `db.subs` root, fails
returns `MOSQ_ERR_NOMEM` and keeps the root it made. -/
theorem subAdd_nomem_keeps_root :
    let env : Env := { plainEnv false with allocOk := fun n => n ≠ 1 }
    let r := (Op.subAdd 1 ⟨"$x/y", 0, 0⟩ ["$x", "y"] none).run env emptyBroker
    Reachable env (fun _ _ => True) r.2 ∧ r.1 = MosqErr.nomem ∧ emptyBroker.hier ["$x"] = none ∧
      (r.2.hier ["$x"]).isSome :=
  ⟨.step _ (.init initial_emptyBroker) trivial, by decide, rfl, by decide⟩

end MosquittoSubs.SubscribeSpec
