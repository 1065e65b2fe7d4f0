import MosquittoSubs.Preservation

set_option autoImplicit false

/-!
# The trie's shape

Two properties of the trie beyond the invariant. Below the roots no node is empty: a
subscription only makes the nodes on its path, and `sub__remove_recurse` and the
`tmp_remove_subs` loop delete each node they leave empty. This holds only along runs whose
subscriptions succeed, since a failed one leaves the nodes it made. And a `#` node has no
children, along runs whose filters have `#` only as their last level and no `#` as their
first, as `sub__topic_tokenise` gives them.
-/

namespace MosquittoSubs.Shape
open Model Publish SysTree Subscribe Unsubscribe Clean Run Frame Invariant Preservation

/-- `!subhier->subs && !subhier->shared && !subhier->children`: the node holds nothing. -/
def bare (s : Broker) (a : Addr) : Prop :=
  s.subs (.normal a) = [] ∧ s.groups a = [] ∧ s.children a = []

instance (s : Broker) (a : Addr) : Decidable (bare s a) :=
  inferInstanceAs (Decidable (_ ∧ _ ∧ _))

/-- Every node below a root, but perhaps the one at `x`, holds a leaf, a group or a child. -/
def FullBut (s : Broker) (x : Addr) : Prop :=
  ∀ a, a ≠ x → (s.hier a).isSome → 2 ≤ a.length → ¬ bare s a

/-- Every node below a root holds a leaf, a group or a child. -/
def Full (s : Broker) : Prop :=
  ∀ a, (s.hier a).isSome → 2 ≤ a.length → ¬ bare s a

/-- A `#` node has no children. -/
def HashLeaf (s : Broker) : Prop :=
  ∀ a, s.children ("#" :: a) = []

/-- Levels with `#` at most as the last, as `sub__topic_tokenise` accepts a filter. -/
def hashLast (ts : List String) : Prop := "#" ∉ ts.dropLast

/-- The first level `sub__topic_tokenise` gives a filter: `""` when the filter does not start
with `$`, and for every `$share/<g>/` filter, whose levels it files under the root `""`;
otherwise the filter's own first level, which starts with `$`. -/
def firstLevel (t0 : String) (sharename : Option String) : Prop :=
  t0 = "" ∨ sharename = none ∧ t0.front = '$'

/-- The levels and share name `sub__topic_tokenise` gives a filter: `#` at most as the last
level, and the first level of `firstLevel`. -/
def Tokenised : List String → Option String → Prop
  | [], _ => True
  | t0 :: rest, g => hashLast (t0 :: rest) ∧ firstLevel t0 g

instance (ts : List String) : Decidable (hashLast ts) :=
  inferInstanceAs (Decidable ("#" ∉ _))

instance (t0 : String) (g : Option String) : Decidable (firstLevel t0 g) :=
  inferInstanceAs (Decidable (_ ∨ _ ∧ _))

instance : (ts : List String) → (g : Option String) → Decidable (Tokenised ts g)
  | [], _ => inferInstanceAs (Decidable True)
  | _ :: _, _ => inferInstanceAs (Decidable (_ ∧ _))

/-- A call whose filter, if it subscribes, has `#` only as its last level and not as its
first. -/
def filterHashLast : Op → Prop
  | .subAdd _ _ ts _ => hashLast ts ∧ ts.head? ≠ some "#"
  | _ => True

/-- Calls whose subscriptions are by clients with an id, to tokenised filters, and succeed. -/
def ShapeOk (env : Env) : Op → Int → Prop
  | .subAdd c _ ts g, rc => (env.client c).id.isSome ∧ Tokenised ts g ∧
      (rc = MosqErr.success ∨ rc = MosqErr.subExists)
  | _, _ => True

theorem Tokenised.head {ts : List String} {g : Option String} (h : Tokenised ts g) :
    ∀ t0 ∈ ts.head?, t0 ≠ "+" ∧ t0 ≠ "#" := by
  cases ts with
  | nil => simp
  | cons t0 rest =>
    rintro _ ⟨⟩
    rcases h.2 with rfl | ⟨-, hf⟩
    · decide
    · exact ⟨fun e => absurd (e ▸ hf) (by decide), fun e => absurd (e ▸ hf) (by decide)⟩

theorem Tokenised.filterHashLast {ts : List String} {g : Option String} (h : Tokenised ts g) :
    hashLast ts ∧ ts.head? ≠ some "#" := by
  cases ts with
  | nil => exact ⟨by simp [hashLast], by simp⟩
  | cons t0 rest => exact ⟨h.1, fun e => (h.head t0 rfl).2 (Option.some.inj e)⟩

variable {env : Env} {s s' : Broker}

/-! ## Empty nodes -/

theorem bare_congr {a : Addr} (hhier : s'.hier a = s.hier a)
    (hsubs : s'.subs (.normal a) = s.subs (.normal a)) : bare s' a ↔ bare s a := by
  simp only [bare, Broker.groups, Broker.children, hhier, hsubs]

theorem not_bare_of_child (ht : Tree s) {a : Addr} {k : String} (ha : a ≠ [])
    (hk : (s.hier (k :: a)).isSome) : ¬ bare s a := fun hb => by
  simpa [hb.2.2] using (ht.children a k).mpr ⟨hk, ha⟩

theorem Full.but (h : Full s) (x : Addr) : FullBut s x := fun a _ => h a

theorem FullBut.full {x : Addr} (h : FullBut s x)
    (hx : (s.hier x).isSome → 2 ≤ x.length → ¬ bare s x) : Full s := fun a =>
  if hax : a = x then hax ▸ hx else h a hax

theorem FullBut.congr {x : Addr} (h : FullBut s x) (hhier : ∀ a, a ≠ x → s'.hier a = s.hier a)
    (hsubs : ∀ a, a ≠ x → s'.subs (.normal a) = s.subs (.normal a)) : FullBut s' x :=
  fun a hax ha hl hb =>
    h a hax (hhier a hax ▸ ha) hl ((bare_congr (hhier a hax) (hsubs a hax)).mp hb)

theorem FullBut.rot {x : Addr} (h : FullBut s x) (hr : Rot s s') : FullBut s' x :=
  h.congr (fun a _ => by rw [hr.hier]) fun a _ => hr.normal a

theorem Full.rot (h : Full s) (hr : Rot s s') : Full s' :=
  ((h.but []).rot hr).full fun _ hl => by simp at hl

theorem FullBut.full_of_mem {x : Addr} {l : LeafRef} (h : FullBut s x)
    (hl : l ∈ s.subs (.normal x)) : Full s :=
  h.full fun _ _ hb => by simp [hb.1] at hl

theorem FullBut.full_of_group {x : Addr} {g : String} (h : FullBut s x) (hg : g ∈ s.groups x) :
    Full s :=
  h.full fun _ _ hb => by simp [hb.2.1] at hg

/-! ## Subscribing -/

theorem fullBut_subAddHierEntry {a : Addr} {t : String} {b : Addr} (ha : (s.hier a).isSome)
    (hf : FullBut s a) (h : subAddHierEntry env (some a) t s = (some b, s')) :
    b = t :: a ∧ FullBut s' b := by
  unfold subAddHierEntry at h
  split_ifs at h
  swap
  · cases h
  cases h
  have hne : a ≠ t :: a := (List.cons_ne_self t a).symm
  refine ⟨rfl, fun c hc hcs hl hb => ?_⟩
  by_cases hca : c = a
  · subst hca
    obtain ⟨n, hn⟩ := Option.isSome_iff_exists.mp ha
    simpa [bare, Broker.children, hn, Function.update_noteq hne] using hb.2.2
  · refine hf c hca (by simpa [Function.update_noteq hc, Function.update_noteq hca] using hcs) hl
      ((bare_congr ?_ ?_).mp hb)
    · simp [Function.update_noteq hc, Function.update_noteq hca]
    · simp [Function.update_noteq (show Host.normal c ≠ .normal (t :: a) by simpa using hc)]

theorem fullBut_addContextWalk (ts : List String) :
    ∀ {a : Addr} {s : Broker} {b : Addr} {s' : Broker}, Inv env s → a ≠ [] → (s.hier a).isSome →
      FullBut s a → addContextWalk env a ts s = .ok (b, s') → FullBut s' b := by
  induction ts with
  | nil => rintro a s b s' - - - hf ⟨⟩; exact hf
  | cons t ts ih =>
    intro a s b s' hs ha0 ha hf h
    unfold addContextWalk at h
    split_ifs at h
    split at h
    · rename_i n hn
      refine ih hs (List.cons_ne_nil t a) (by simp [hn]) (fun x hx => ?_) h
      by_cases hxa : x = a
      · subst hxa
        exact fun _ _ => not_bare_of_child hs.tree ha0 (Option.isSome_iff_exists.mpr ⟨n, hn⟩)
      · exact hf x hxa
    · rename_i hn
      have hi := inv_subAddHierEntry hs ha hn
      split at h
      · rename_i b' s₁ heq
        rw [heq] at hi
        obtain ⟨rfl, hf₁⟩ := fullBut_subAddHierEntry ha hf heq
        exact ih hi.1 (List.cons_ne_nil t a) (hi.2 _ rfl).2 hf₁ h
      · cases h

theorem groups_of_shared {a : Addr} {G : List String}
    (h : s'.hier = Function.update s.hier a ((s.hier a).map fun n => { n with shared := G }))
    (ha : (s.hier a).isSome) : s'.groups a = G := by
  obtain ⟨n, hn⟩ := Option.isSome_iff_exists.mp ha
  simp [Broker.groups, h, hn]

theorem children_of_shared {a : Addr} {G : List String}
    (h : s'.hier = Function.update s.hier a ((s.hier a).map fun n => { n with shared := G }))
    (x : Addr) : s'.children x = s.children x := by
  by_cases hx : x = a
  · subst hx
    cases hn : s.hier x <;> simp [Broker.children, h, hn]
  · simp [Broker.children, h, Function.update_noteq hx]

theorem full_subAddNormal (hs : Inv env s) {c : ClientRef} {sub : Subscription} {b : Addr}
    {rc : Int} (hf : FullBut s b) (h : subAddNormal env c sub b s = (rc, s'))
    (hrc : rc = MosqErr.success ∨ rc = MosqErr.subExists) : Full s' := by
  rcases subAddNormal_cases hs.lists h with ⟨m, hm, -, rfl⟩ | ⟨rfl, -⟩ |
    ⟨-, -, t, subs, -, hlink, hhier, -, -, hrot⟩
  · exact (hf.congr (fun _ _ => rfl) fun _ _ => rfl).full_of_mem (List.mem_of_find?_eq_some hm)
  · exact absurd rfl (fail_ne_ok hrc).1
  · have hft : FullBut t b := hf.congr (fun _ _ => by rw [hhier]) fun x hx => by
      simp [hlink.subs, Function.update_noteq (show Host.normal x ≠ .normal b by simpa using hx)]
    exact (hft.full_of_mem (by simp [hlink.subs] : s.allocs ∈ t.subs (.normal b))).rot hrot

theorem full_subAddShared (hs : Inv env s) {c : ClientRef} {sub : Subscription} {b : Addr}
    {g : String} {rc : Int} (hf : FullBut s b) (h : subAddShared env c sub b g s = (rc, s'))
    (hrc : rc = MosqErr.success ∨ rc = MosqErr.subExists) : Full s' := by
  rcases subAddShared_cases hs h with ⟨m, hm, -, rfl⟩ | ⟨rfl, -⟩ |
    ⟨-, -, l, subs, -, hlink, hhier, -, -⟩
  · exact (hf.congr (fun _ _ => rfl) fun _ _ => rfl).full_of_group
      ((hs.tree.groups b g).mpr (List.ne_nil_of_mem (List.mem_of_find?_eq_some hm)))
  · exact absurd rfl (fail_ne_ok hrc).1
  · have hft : FullBut s' b := hf.congr (fun x hx => by simp [hhier, Function.update_noteq hx])
      fun x _ => by simp [hlink.subs]
    refine hft.full fun hb _ hbare => ?_
    have hsb : (s.hier b).isSome := by
      by_contra hn
      simp [hhier, Option.not_isSome_iff_eq_none.mp hn] at hb
    have hG := hbare.2.1
    rw [groups_of_shared hhier hsb] at hG
    split_ifs at hG with hg
    · simp [hG] at hg
    · simp at hG

theorem full_subAddContext (hs : Inv env s) {c : ClientRef} {sub : Subscription} {a : Addr}
    (ha0 : a ≠ []) (ha : (s.hier a).isSome) (hf : FullBut s a) (ts : List String)
    (g : Option String) (hid : (env.client c).id.isSome)
    (hrc : (subAddContext env c sub a ts g s).1 = MosqErr.success ∨
      (subAddContext env c sub a ts g s).1 = MosqErr.subExists) :
    Full (subAddContext env c sub a ts g s).2 := by
  obtain ⟨hw, hb⟩ := inv_addContextWalk ts hs ha
  revert hrc
  unfold subAddContext
  split
  · rename_i r heq
    intro hrc
    obtain ⟨rc, t⟩ := r
    rcases addContextWalk_error ts heq with rfl | rfl
    · exact absurd rfl (fail_ne_ok hrc).2
    · exact absurd rfl (fail_ne_ok hrc).1
  · rename_i b s₁ heq
    rw [heq] at hw
    have hf₁ := fullBut_addContextWalk ts hs ha0 ha hf heq
    rw [if_pos hid]
    intro hrc
    cases g with
    | some g => exact full_subAddShared hw hf₁ rfl hrc
    | none => exact full_subAddNormal hw hf₁ rfl hrc

theorem full_subAdd (hs : Inv env s) (hf : Full s) (c : ClientRef) (sub : Subscription)
    (ts : List String) (g : Option String) (hid : (env.client c).id.isSome)
    (hrc : (subAdd env c sub ts g s).1 = MosqErr.success ∨
      (subAdd env c sub ts g s).1 = MosqErr.subExists) :
    Full (subAdd env c sub ts g s).2 := by
  revert hrc
  unfold subAdd
  split
  · exact fun hrc => absurd rfl (fail_ne_ok hrc).2
  · rename_i t0 rest
    split_ifs
    · exact fun hrc => absurd rfl (fail_ne_ok hrc).2
    split
    · rename_i n hn
      exact full_subAddContext hs (List.cons_ne_nil _ _) (by simp [hn]) (hf.but _) _ _ hid
    · rename_i hn
      obtain ⟨h₁, h₂⟩ := inv_subAddHierEntry_root hs hn
      split
      · rename_i a s₁ heq
        rw [heq] at h₁ h₂
        obtain ⟨rfl, ha⟩ := h₂ a rfl
        refine full_subAddContext h₁ (List.cons_ne_nil _ _) ha ?_ _ _ hid
        unfold subAddHierEntry at heq
        split_ifs at heq <;> cases heq
        exact (hf.but [t0]).congr (fun x hx => by simp [Function.update_noteq hx])
          fun x hx => by simp [Function.update_noteq (show Host.normal x ≠ .normal [t0] by simpa using hx)]
      · exact fun hrc => absurd rfl (fail_ne_ok hrc).1

/-! ## Unsubscribing -/

theorem fullBut_subRemoveNormal (hs : Inv env s) (c : ClientRef) {a : Addr} (reason : UInt8)
    (hf : FullBut s a) : FullBut (subRemoveNormal env c a reason s).2.2 a := by
  rcases h : subRemoveNormal env c a reason s with ⟨rc, reason', s'⟩
  rcases subRemoveNormal_cases hs h with ⟨-, -, -, rfl⟩ |
    ⟨l, leaf, subs, -, -, -, -, -, -, -, t, hun, hhier, -, -, -, hrot⟩
  · exact hf
  · exact (hf.congr (fun _ _ => by rw [hhier]) fun x hx => by
      simp [hun.subs, Function.update_noteq (show Host.normal x ≠ .normal a by simpa using hx)]).rot
      hrot

theorem fullBut_subRemoveShared (hs : Inv env s) (c : ClientRef) {a : Addr} (reason : UInt8)
    (g : String) (hf : FullBut s a) : FullBut (subRemoveShared env c a reason g s).2.2 a := by
  rcases h : subRemoveShared env c a reason g s with ⟨rc, reason', s'⟩
  rcases subRemoveShared_cases hs h with ⟨-, -, -, rfl⟩ |
    ⟨l, leaf, subs, -, -, -, -, -, -, -, hun, hhier, -⟩
  · exact hf
  · exact hf.congr (fun x hx => by simp [hhier, Function.update_noteq hx]) fun x _ => by
      simp [hun.subs]

theorem fullBut_pruneChild {a : Addr} {t : String} (hf : FullBut s (t :: a)) :
    FullBut (pruneChild a t s) a := by
  unfold pruneChild
  split
  · split_ifs with hb
    · intro x hx hxs hl hbx
      by_cases hxt : x = t :: a
      · subst hxt
        simp at hxs
      · exact hf x hxt (by simpa [Function.update_noteq hxt, Function.update_noteq hx] using hxs)
          hl ((bare_congr (by simp [Function.update_noteq hxt, Function.update_noteq hx]) (by rfl)).mp
            hbx)
    · intro x hx hxs hl hbx
      by_cases hxt : x = t :: a
      · subst hxt
        exact hb ⟨hbx.2.2, hbx.1, hbx.2.1⟩
      · exact hf x hxt hxs hl hbx
  · rename_i hn
    intro x _ hxs hl hbx
    by_cases hxt : x = t :: a
    · subst hxt
      simp [hn] at hxs
    · exact hf x hxt hxs hl hbx

theorem fullBut_subRemoveRecurse (c : ClientRef) (sharename : Option String) (ts : List String) :
    ∀ {a : Addr} {reason : UInt8} {s : Broker}, Inv env s → a ≠ [] → FullBut s a →
      FullBut (subRemoveRecurse env c sharename a ts reason s).2.2 a := by
  induction ts with
  | nil =>
    intro a reason s hs _ hf
    cases sharename with
    | some g => exact fullBut_subRemoveShared hs c reason g hf
    | none => exact fullBut_subRemoveNormal hs c reason hf
  | cons t ts ih =>
    intro a reason s hs ha hf
    unfold subRemoveRecurse
    split
    · exact hf
    · rename_i n hn
      refine fullBut_pruneChild (ih hs (List.cons_ne_nil t a) fun x hx => ?_)
      by_cases hxa : x = a
      · subst hxa
        exact fun _ _ => not_bare_of_child hs.tree ha (Option.isSome_iff_exists.mpr ⟨n, hn⟩)
      · exact hf x hxa

theorem full_subRemove (hs : Inv env s) (hf : Full s) (c : ClientRef) (ts : List String)
    (g : Option String) (reason : UInt8) : Full (subRemove env c ts g reason s).2.2 := by
  unfold subRemove
  split
  · exact hf
  · split
    · exact (fullBut_subRemoveRecurse c g _ hs (List.cons_ne_nil _ []) (hf.but _)).full
        fun _ hl => by simp at hl
    · exact hf

/-! ## Session cleanup -/

theorem hasParent_iff (a : Addr) : hasParent a = true ↔ 2 ≤ a.length := by
  match a with
  | [] => simp [hasParent]
  | [_] => simp [hasParent]
  | _ :: _ :: _ => simp [hasParent]

theorem full_removeUp (a : Addr) :
    ∀ {s : Broker}, FullBut s a → s.groups a = [] → Full (removeUp a s) := by
  induction a with
  | nil => intro s hf _; exact hf.full fun _ hl => by simp at hl
  | cons k p ih =>
    intro s hf hg
    unfold removeUp
    rcases h : tmpRemoveSubs (k :: p) s with ⟨r, t⟩
    rcases tmpRemoveSubs_cases h with ⟨rfl, rfl, hbusy⟩ | ⟨k', p', he, -, -, -, -, rfl, hr⟩
    · exact hf.full fun hx hl hb => by
        rcases hbusy hx hl with h' | h'
        · exact h' hb.2.2
        · exact h' hb.1
    · cases he
      have hft : FullBut ((s.modifyHier p fun m => { m with children := m.children.erase k }).setHier
          (k :: p) none) p := by
        intro x hx hxs hl hbx
        by_cases hxk : x = k :: p
        · subst hxk
          simp at hxs
        · exact hf x hxk (by simpa [Function.update_noteq hxk, Function.update_noteq hx] using hxs)
            hl ((bare_congr (by simp [Function.update_noteq hxk, Function.update_noteq hx]) (by rfl)).mp
              hbx)
      rcases hr with ⟨rfl, hnot⟩ | ⟨rfl, -, -, hgp, -⟩
      · exact hft.full fun hx hl hb => hnot ⟨hx, hb.1, hb.2.2, hb.2.1, (hasParent_iff p).mpr hl⟩
      · exact ih hft hgp

theorem full_pruneEmpty {a : Addr} (hf : FullBut s a) : Full (pruneEmpty a s) := by
  unfold pruneEmpty
  split
  · split_ifs with h
    · exact full_removeUp a hf h.2.2.1
    · exact hf.full fun _ hl hb => h ⟨hb.1, hb.2.2, hb.2.1, (hasParent_iff a).mpr hl⟩
  · rename_i hn
    exact hf.full fun hx => by simp [hn] at hx

theorem full_cleanSlot {c : ClientRef} {x : Option LeafRef} {rest : List (Option LeafRef)}
    (hs : CleanInv env c s (x :: rest)) (hf : Full s) : Full (cleanSlot env c x s) := by
  cases x with
  | none => exact hf
  | some l =>
    cases hl : s.leaves l with
    | none =>
      simp only [cleanSlot, hl]
      exact hf
    | some leaf =>
      have hc := hs.own l leaf (List.mem_cons_self _ _) hl
      obtain ⟨a, ha⟩ := Option.isSome_iff_exists.mp (hs.lists.hosted l leaf hl)
      simp only [cleanSlot, hl, ha]
      subst hc
      refine full_pruneEmpty ?_
      have hhost : leaf.host = some (Host.of a leaf.shared) := by simp [ha]
      have hs₀ : Lists env
          { s with persistDeleted := s.persistDeleted ++ [(leaf.context, leaf.topicFilter)] } :=
        hs.lists.congr (fun _ => List.Perm.refl _) (fun _ => rfl) le_rfl
      cases hg : leaf.shared with
      | none =>
        rw [hg] at hhost
        obtain ⟨u, hun, hhier, -, -, -, -, hrot⟩ := unlinkOwn_normal hs₀ hl hhost
        exact ((hf.but a).congr (fun _ _ => by rw [hhier]) fun y hy => by
          simp [hun.subs, Function.update_noteq (show Host.normal y ≠ .normal a by simpa using hy)]).rot
          hrot
      | some g =>
        rw [hg] at hhost
        obtain ⟨hun, hhier, -⟩ := unlinkOwn_shared hs₀ hl hhost
        exact (hf.but a).congr (fun y hy => by simpa [Function.update_noteq hy] using congrFun hhier y)
          fun y _ => by simpa using congrFun hun.subs (.normal y)

theorem full_foldl (c : ClientRef) (rest : List (Option LeafRef)) :
    ∀ {s : Broker}, CleanInv env c s rest → Full s →
      Full (rest.foldl (fun s slot => cleanSlot env c slot s) s) := by
  induction rest with
  | nil => intro s _ hf; exact hf
  | cons x rest ih => intro s hs hf; exact ih hs.step (full_cleanSlot hs hf)

theorem full_subCleanSession (hs : Inv env s) (hf : Full s) (c : ClientRef) :
    Full (subCleanSession env c s).2 :=
  full_foldl c _ (CleanInv.init hs c) hf

/-! ## Runs -/

theorem full_run (hs : Inv env s) (hf : Full s) (op : Op) (hok : ShapeOk env op (op.run env s).1) :
    Full (op.run env s).2 := by
  cases op with
  | subAdd c sub ts g => exact full_subAdd hs hf c sub ts g hok.1 hok.2.2
  | subRemove c ts g r => exact full_subRemove hs hf c ts g r
  | subCleanSession c => exact full_subCleanSession hs hf c
  | subMessagesQueue src t ts q r m => exact hf.rot (subMessagesQueue_rot env t q r m src ts s)

theorem full_initial (hs : Initial s) : Full s := fun a ha hl => by
  obtain ⟨n, hn⟩ := Option.isSome_iff_exists.mp ha
  have := (hs.roots a n hn).1
  omega

theorem full_reachable (h : Reachable env (ShapeOk env) s) : Full s := by
  induction h with
  | init hi => exact full_initial hi
  | step op hr hok ih => exact full_run (inv_reachable hr) ih op hok

/-! ## `#` nodes -/

theorem HashLeaf.of_sub (h : HashLeaf s) (hc : ∀ a, s'.children a ⊆ s.children a) :
    HashLeaf s' :=
  fun a => List.subset_nil.mp (by simpa [h a] using hc ("#" :: a))

theorem HashLeaf.of_eq (h : HashLeaf s) (hc : ∀ a, s'.children a = s.children a) :
    HashLeaf s' :=
  h.of_sub fun a => hc a ▸ List.Subset.refl _

theorem children_setLeaf (l : LeafRef) (leaf : Option Subleaf) (x : Addr) :
    (s.setLeaf l leaf).children x = s.children x := rfl

theorem hashLast_cons {t : String} {ts : List String} (h : hashLast (t :: ts)) :
    hashLast ts ∧ (ts ≠ [] → t ≠ "#") := by
  cases ts with
  | nil => exact ⟨by simp [hashLast], fun h => absurd rfl h⟩
  | cons u us =>
    simp only [hashLast, List.dropLast_cons₂, List.mem_cons, not_or] at h
    exact ⟨h.2, fun _ => Ne.symm h.1⟩

theorem children_modifyHier (a : Addr) (f : Subhier → Subhier)
    (hf : ∀ n, (f n).children = n.children) (x : Addr) : (s.modifyHier a f).children x = s.children x := by
  by_cases hx : x = a
  · subst hx
    cases hn : s.hier x <;> simp [Broker.children, hn, hf]
  · simp [Broker.children, Function.update_noteq hx]

theorem children_prune (k : String) (p x : Addr) :
    ((s.modifyHier p fun m => { m with children := m.children.erase k }).setHier (k :: p) none).children x ⊆
      s.children x := by
  by_cases hxk : x = k :: p
  · subst hxk
    simp [Broker.children]
  · by_cases hxp : x = p
    · subst hxp
      cases hn : s.hier x <;> simp [Broker.children, hn, Function.update_noteq hxk, List.erase_subset]
    · simp [Broker.children, Function.update_noteq hxk, Function.update_noteq hxp]

theorem subAddHierEntry_addr {p : Option Addr} {t : String} {b : Addr}
    (h : (subAddHierEntry env p t s).1 = some b) : b = t :: p.getD [] := by
  unfold subAddHierEntry at h
  split_ifs at h
  cases p <;> simp_all

theorem hashLeaf_subAddHierEntry (h : HashLeaf s) {a : Addr} (t : String)
    (ha : a.head? ≠ some "#") : HashLeaf (subAddHierEntry env (some a) t s).2 := by
  unfold subAddHierEntry
  split_ifs
  · intro x
    have h₁ : "#" :: x ≠ a := by
      rintro rfl
      simp at ha
    by_cases h₂ : "#" :: x = t :: a
    · rw [h₂]
      simp [Broker.children, Subhier.empty, Function.update_noteq (List.cons_ne_self t a)]
    · simpa [Broker.children, Function.update_noteq h₁, Function.update_noteq h₂] using h x
  · exact h

theorem hashLeaf_subAddHierEntry_root (h : HashLeaf s) (t : String) :
    HashLeaf (subAddHierEntry env none t s).2 := by
  unfold subAddHierEntry
  split_ifs
  · intro x
    by_cases h₁ : "#" :: x = [t]
    · rw [h₁]
      simp [Broker.children, Subhier.empty]
    · simpa [Broker.children, Function.update_noteq h₁] using h x
  · exact h

theorem hashLeaf_addContextWalk (ts : List String) :
    ∀ {a : Addr} {s : Broker}, HashLeaf s → (ts ≠ [] → a.head? ≠ some "#") →
      hashLast ts → HashLeaf (walkEnd (addContextWalk env a ts s)) := by
  induction ts with
  | nil => intro a s h _ _; exact h
  | cons t ts ih =>
    intro a s h ha hts
    obtain ⟨hts', hne⟩ := hashLast_cons hts
    have hnext : ts ≠ [] → (t :: a).head? ≠ some "#" := fun h' => by simpa using hne h'
    unfold addContextWalk
    split_ifs
    · exact h
    · split
      · exact ih h hnext hts'
      · have h₁ : HashLeaf (subAddHierEntry env (some a) t s).2 :=
          hashLeaf_subAddHierEntry h t (ha (List.cons_ne_nil t ts))
        split
        · rename_i b s₁ heq
          have hb := subAddHierEntry_addr (congrArg Prod.fst heq)
          simp only [Option.getD_some] at hb
          subst hb
          rw [heq] at h₁
          exact ih h₁ hnext hts'
        · rename_i s₁ heq
          rw [heq] at h₁
          exact h₁

theorem children_subAddNormal (hs : Inv env s) (c : ClientRef) (sub : Subscription) (b : Addr)
    (x : Addr) : (subAddNormal env c sub b s).2.children x = s.children x := by
  rcases h : subAddNormal env c sub b s with ⟨rc, s'⟩
  rcases subAddNormal_cases hs.lists h with ⟨m, -, -, rfl⟩ | ⟨-, hrot⟩ |
    ⟨-, -, t, subs, -, -, hhier, -, -, hrot⟩
  · rfl
  · exact hrot.children x
  · rw [hrot.children]
    simp [Broker.children, hhier]

theorem children_subAddShared (hs : Inv env s) (c : ClientRef) (sub : Subscription) (b : Addr)
    (g : String) (x : Addr) : (subAddShared env c sub b g s).2.children x = s.children x := by
  rcases h : subAddShared env c sub b g s with ⟨rc, s'⟩
  rcases subAddShared_cases hs h with ⟨m, -, -, rfl⟩ | ⟨-, hrot⟩ | ⟨-, -, l, subs, -, -, hhier, -⟩
  · rfl
  · exact hrot.children x
  · exact children_of_shared hhier x

theorem hashLeaf_subAddContext (hs : Inv env s) (h : HashLeaf s) (c : ClientRef)
    (sub : Subscription) {a : Addr} (ha : (s.hier a).isSome) {ts : List String}
    (ha' : ts ≠ [] → a.head? ≠ some "#") (hts : hashLast ts) (g : Option String) :
    HashLeaf (subAddContext env c sub a ts g s).2 := by
  have hw : HashLeaf (walkEnd (addContextWalk env a ts s)) := hashLeaf_addContextWalk ts h ha' hts
  have hiw := (inv_addContextWalk ts hs ha).1
  unfold subAddContext
  split
  · rename_i r heq
    rw [heq] at hw
    exact hw
  · rename_i b s₁ heq
    rw [heq] at hw hiw
    simp only [walkEnd] at hw hiw
    split_ifs
    · cases g with
      | some g => exact hw.of_sub fun x => by simp [children_subAddShared hiw]
      | none => exact hw.of_sub fun x => by simp [children_subAddNormal hiw]
    · exact hw

theorem hashLeaf_subAdd (hs : Inv env s) (h : HashLeaf s) (c : ClientRef) (sub : Subscription)
    {ts : List String} (hts : hashLast ts ∧ ts.head? ≠ some "#") (g : Option String) :
    HashLeaf (subAdd env c sub ts g s).2 := by
  unfold subAdd
  split
  · exact h
  · rename_i t0 rest
    have h0 : ∀ _ : t0 :: rest ≠ [], [t0].head? ≠ some "#" := fun _ => hts.2
    split_ifs
    · exact h
    split
    · rename_i n hn
      exact hashLeaf_subAddContext hs h c sub (by simp [hn]) h0 hts.1 g
    · rename_i hn
      obtain ⟨h₁, h₂⟩ := inv_subAddHierEntry_root hs hn
      have h₃ : HashLeaf (subAddHierEntry env none t0 s).2 := hashLeaf_subAddHierEntry_root h t0
      split
      · rename_i a s₁ heq
        rw [heq] at h₁ h₂ h₃
        obtain ⟨rfl, ha⟩ := h₂ a rfl
        exact hashLeaf_subAddContext h₁ h₃ c sub ha h0 hts.1 g
      · rename_i s₁ heq
        rw [heq] at h₃
        exact h₃

theorem children_subRemoveNormal (hs : Inv env s) (c : ClientRef) (a : Addr) (reason : UInt8)
    (x : Addr) : (subRemoveNormal env c a reason s).2.2.children x = s.children x := by
  rcases h : subRemoveNormal env c a reason s with ⟨rc, reason', s'⟩
  rcases subRemoveNormal_cases hs h with ⟨-, -, -, rfl⟩ |
    ⟨l, leaf, subs, -, -, -, -, -, -, -, t, -, hhier, -, -, -, hrot⟩
  · rfl
  · rw [hrot.children]
    simp [Broker.children, hhier]

theorem children_subRemoveShared (hs : Inv env s) (c : ClientRef) (a : Addr) (reason : UInt8)
    (g : String) (x : Addr) : (subRemoveShared env c a reason g s).2.2.children x = s.children x := by
  rcases h : subRemoveShared env c a reason g s with ⟨rc, reason', s'⟩
  rcases subRemoveShared_cases hs h with ⟨-, -, -, rfl⟩ |
    ⟨l, leaf, subs, -, -, -, -, -, -, -, -, hhier, -⟩
  · rfl
  · exact children_of_shared hhier x

theorem children_pruneChild (a : Addr) (t : String) (x : Addr) :
    (pruneChild a t s).children x ⊆ s.children x := by
  unfold pruneChild
  split
  · split_ifs
    · exact children_prune t a x
    · exact List.Subset.refl _
  · exact List.Subset.refl _

theorem children_subRemoveRecurse (c : ClientRef) (sharename : Option String) (ts : List String) :
    ∀ {a : Addr} {reason : UInt8} {s : Broker}, Inv env s → ∀ x,
      (subRemoveRecurse env c sharename a ts reason s).2.2.children x ⊆ s.children x := by
  induction ts with
  | nil =>
    intro a reason s hs x
    cases sharename with
    | some g => simp [subRemoveRecurse, children_subRemoveShared hs]
    | none => simp [subRemoveRecurse, children_subRemoveNormal hs]
  | cons t ts ih =>
    intro a reason s hs x
    unfold subRemoveRecurse
    split
    · exact List.Subset.refl _
    · exact (children_pruneChild a t x).trans (ih hs x)

theorem hashLeaf_subRemove (hs : Inv env s) (h : HashLeaf s) (c : ClientRef) (ts : List String)
    (g : Option String) (reason : UInt8) : HashLeaf (subRemove env c ts g reason s).2.2 := by
  unfold subRemove
  split
  · exact h
  · split
    · exact h.of_sub (children_subRemoveRecurse c g _ hs)
    · exact h

theorem children_removeUp (a : Addr) : ∀ {s : Broker} (x : Addr), (removeUp a s).children x ⊆ s.children x := by
  induction a with
  | nil => intro s x; exact List.Subset.refl _
  | cons k p ih =>
    intro s x
    unfold removeUp
    rcases h : tmpRemoveSubs (k :: p) s with ⟨r, t⟩
    rcases tmpRemoveSubs_cases h with ⟨rfl, rfl, -⟩ | ⟨k', p', he, -, -, -, -, rfl, hr⟩
    · exact List.Subset.refl _
    · cases he
      rcases hr with ⟨rfl, -⟩ | ⟨rfl, -⟩
      · exact children_prune k p x
      · exact (ih x).trans (children_prune k p x)

theorem children_deleteShared (a : Addr) (g : String) (x : Addr) :
    (deleteShared a g s).children x = s.children x := by
  unfold deleteShared
  exact children_modifyHier a (fun n => { n with shared := n.shared.erase g }) (fun _ => rfl) x

theorem children_unlinkOwn (c : ClientRef) (a : Addr) (g : Option String) (x : Addr) :
    (unlinkOwn env c a g s).children x = s.children x := by
  unfold unlinkOwn
  split
  · split
    · simp only [subRemoveSharedLeaf]
      split_ifs <;> (try rw [children_deleteShared]) <;> rfl
    · rfl
  · split
    · dsimp only
      split_ifs
      · exact (subUpdateSubscribedTopics_rot env a _).children x
      · rfl
    · rfl

theorem children_pruneEmpty (a x : Addr) : (pruneEmpty a s).children x ⊆ s.children x := by
  unfold pruneEmpty
  split
  · split_ifs
    · exact children_removeUp a x
    · exact List.Subset.refl _
  · exact List.Subset.refl _

theorem children_cleanSlot (c : ClientRef) (slot : Option LeafRef) (x : Addr) :
    (cleanSlot env c slot s).children x ⊆ s.children x := by
  unfold cleanSlot
  split
  · exact List.Subset.refl _
  · split
    · exact List.Subset.refl _
    · split
      · exact List.Subset.refl _
      · rename_i a _
        refine (children_pruneEmpty a x).trans ?_
        rw [children_setLeaf, children_unlinkOwn]
        exact List.Subset.refl _

theorem hashLeaf_subCleanSession (h : HashLeaf s) (c : ClientRef) :
    HashLeaf (subCleanSession env c s).2 := by
  have : ∀ (rest : List (Option LeafRef)) (s : Broker), HashLeaf s →
      HashLeaf (rest.foldl (fun s slot => cleanSlot env c slot s) s) := by
    intro rest
    induction rest with
    | nil => intro s h; exact h
    | cons x rest ih => intro s h; exact ih _ (h.of_sub (children_cleanSlot c x))
  exact this _ s h

theorem hashLeaf_run (hs : Inv env s) (h : HashLeaf s) (op : Op) (hop : filterHashLast op) :
    HashLeaf (op.run env s).2 := by
  cases op with
  | subAdd c sub ts g => exact hashLeaf_subAdd hs h c sub hop g
  | subRemove c ts g r => exact hashLeaf_subRemove hs h c ts g r
  | subCleanSession c => exact hashLeaf_subCleanSession h c
  | subMessagesQueue src t ts q r m =>
    exact h.of_eq (subMessagesQueue_rot env t q r m src ts s).children

theorem hashLeaf_initial (hs : Initial s) : HashLeaf s := fun a => by
  cases hn : s.hier ("#" :: a) with
  | none => simp [Broker.children, hn]
  | some n => simp [Broker.children, hn, (hs.roots _ n hn).2, Subhier.empty]

theorem hashLeaf_reachable {ok : Op → Int → Prop} (hok : ∀ op rc, ok op rc → filterHashLast op)
    (h : Reachable env ok s) : HashLeaf s := by
  induction h with
  | init hi => exact hashLeaf_initial hi
  | step op hr hop ih => exact hashLeaf_run (inv_reachable hr) ih op (hok _ _ hop)

/-! ## The shape of reachable tries -/

/-- Along successful subscriptions by clients with an id, to filters as `sub__topic_tokenise`
gives them, and any unsubscriptions, session cleanups and publishes: every node below a root
holds a leaf, a group or a child; every group has members; a `#` node has no children; and a
node's `children` hash holds, once each, exactly the keys of the nodes one level below it,
whose parent it is. -/
theorem trie_shape (h : Reachable env (ShapeOk env) s) :
    (∀ a, (s.hier a).isSome → 2 ≤ a.length →
      s.subs (.normal a) ≠ [] ∨ s.groups a ≠ [] ∨ s.children a ≠ []) ∧
    (∀ a g, g ∈ s.groups a → s.subs (.shared a g) ≠ []) ∧
    (∀ a, s.children ("#" :: a) = []) ∧
    (∀ a k, k ∈ s.children a ↔ (s.hier (k :: a)).isSome ∧ a ≠ []) ∧
    (∀ a, (s.children a).Nodup) := by
  have hs := inv_reachable h
  refine ⟨fun a ha hl => ?_, fun a g => (hs.tree.groups a g).mp,
    hashLeaf_reachable (fun op rc hok => ?_) h, hs.tree.children, hs.tree.childrenNodup⟩
  · have := full_reachable h a ha hl
    simp only [bare, not_and_or] at this
    exact this
  · cases op with
    | subAdd c sub ts g => exact hok.2.1.filterHashLast
    | _ => trivial

theorem trie_shape_after_subscribe :
    let s := ((Op.subAdd 1 ⟨"#", 0, 0⟩ ["", "#"] none).run (plainEnv false) openedBroker).2
    (∀ a, (s.hier a).isSome → 2 ≤ a.length →
      s.subs (.normal a) ≠ [] ∨ s.groups a ≠ [] ∨ s.children a ≠ []) ∧
    (∀ a g, g ∈ s.groups a → s.subs (.shared a g) ≠ []) ∧
    (∀ a, s.children ("#" :: a) = []) ∧
    (∀ a k, k ∈ s.children a ↔ (s.hier (k :: a)).isSome ∧ a ≠ []) ∧
    (∀ a, (s.children a).Nodup) :=
  trie_shape (.step _ (.init initial_openedBroker) ⟨by decide, by decide, .inl (by decide)⟩)

end MosquittoSubs.Shape
