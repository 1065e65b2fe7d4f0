import MosquittoSubs.Preservation

set_option autoImplicit false

/-!
# The client's `subs` array

`sub__add_normal` and `sub__add_shared` store a new leaf in the first `NULL` slot of
`context->subs`, and call `mosquitto__realloc` for one more slot only when the loop over
`subs_capacity` slots found none; `sub__remove_normal` and `sub__remove_shared` clear the
leaf's slot and keep the array; `sub__clean_session` frees it. So the array grows exactly
when a subscription takes `subs_count` above every value it had since the client's last
cleanup, and `subs_capacity` is the largest value `subs_count` has taken since then.
-/

namespace MosquittoSubs.Index
open Model Publish SysTree Subscribe Unsubscribe Clean Run Frame Invariant Preservation

variable {env : Env} {s t u : Broker}

/-! ## Slots -/

theorem assignSlot_length {l : LeafRef} :
    ∀ {xs ys : List (Option LeafRef)}, assignSlot l xs = some ys → ys.length = xs.length
  | [], _, h => by simp [assignSlot] at h
  | none :: xs, ys, h => by
    simp only [assignSlot, Option.some.injEq] at h
    rw [← h]
    rfl
  | some x :: xs, ys, h => by
    simp only [assignSlot, Option.map_eq_some'] at h
    obtain ⟨zs, hz, rfl⟩ := h
    simp [assignSlot_length hz]

theorem assignSlot_none {l : LeafRef} :
    ∀ {xs : List (Option LeafRef)}, assignSlot l xs = none → (xs.filterMap id).length = xs.length
  | [], _ => rfl
  | none :: xs, h => by simp [assignSlot] at h
  | some x :: xs, h => by
    simp only [assignSlot, Option.map_eq_none'] at h
    simp [assignSlot_none h]

theorem freeSlot_length {l : LeafRef} :
    ∀ {xs ys : List (Option LeafRef)}, freeSlot l xs = some ys → ys.length = xs.length
  | [], _, h => by simp [freeSlot] at h
  | x :: xs, ys, h => by
    unfold freeSlot at h
    split_ifs at h
    · cases h
      rfl
    · obtain ⟨zs, hz, rfl⟩ := Option.map_eq_some'.mp h
      simp [freeSlot_length hz]

theorem count_le_capacity {c : ClientRef} (hs : Slots s c) :
    (s.contexts c).subsCount ≤ (s.contexts c).subs.length := by
  rw [hs.count]
  exact_mod_cast List.length_filterMap_le _ _

/-! ## What a call does to the array -/

/-- What a call other than the client's own cleanup can do to its array: keep its length,
or, when every slot holds a leaf, append a slot holding a new leaf and count it. -/
def Grows (x y : Context) : Prop :=
  y.subs.length = x.subs.length ∨
    ∃ l, assignSlot l x.subs = none ∧ y = ⟨x.subs ++ [some l], x.subsCount + 1⟩

/-- Every client's array changes from `s` to `t` as `Grows` allows. -/
def IndexGrows (s t : Broker) : Prop := ∀ c, Grows (s.contexts c) (t.contexts c)

theorem grows_of_slot {x : Context} {l : LeafRef} {subs : List (Option LeafRef)}
    (h : assignSlot l x.subs = some subs ∨
      assignSlot l x.subs = none ∧ subs = x.subs ++ [some l]) :
    Grows x ⟨subs, x.subsCount + 1⟩ := by
  rcases h with h | ⟨h, rfl⟩
  · exact .inl (assignSlot_length h)
  · exact .inr ⟨l, h, rfl⟩

namespace IndexGrows

theorem of_contexts (h : t.contexts = s.contexts) : IndexGrows s t :=
  fun c => .inl (by rw [h])

theorem refl (s : Broker) : IndexGrows s s := of_contexts rfl

theorem update {c : ClientRef} {ctx : Context} (h : t.contexts = Function.update s.contexts c ctx)
    (hc : Grows (s.contexts c) ctx) : IndexGrows s t := fun c' => by
  rw [h]
  by_cases hc' : c' = c
  · subst hc'
    simpa using hc
  · rw [Function.update_noteq hc']
    exact .inl rfl

theorem congr_left (h : u.contexts = s.contexts) (hg : IndexGrows u t) : IndexGrows s t :=
  fun c => h ▸ hg c

theorem congr_right (hg : IndexGrows s t) (h : u.contexts = t.contexts) : IndexGrows s u :=
  fun c => h ▸ hg c

end IndexGrows

/-! ### Subscribing -/

theorem contexts_subAddHierEntry (p : Option Addr) (k : String) (s : Broker) :
    (subAddHierEntry env p k s).2.contexts = s.contexts := by
  unfold subAddHierEntry
  split_ifs
  · cases p <;> rfl
  · rfl

theorem contexts_walkEnd (ts : List String) :
    ∀ (a : Addr) (s : Broker), (walkEnd (addContextWalk env a ts s)).contexts = s.contexts := by
  induction ts with
  | nil => exact fun _ _ => rfl
  | cons k ts ih =>
    intro a s
    unfold addContextWalk
    split_ifs
    · rfl
    split
    · exact ih _ s
    · have h : (subAddHierEntry env (some a) k s).2.contexts = s.contexts :=
        contexts_subAddHierEntry _ _ _
      rcases he : subAddHierEntry env (some a) k s with ⟨_ | b, s₁⟩ <;> rw [he] at h
      · exact h
      · exact (ih b s₁).trans h

theorem indexGrows_subAddNormal (hs : Lists env s) (c : ClientRef) (sub : Subscription)
    (a : Addr) : IndexGrows s (subAddNormal env c sub a s).2 := by
  rcases h : subAddNormal env c sub a s with ⟨rc, s'⟩
  rcases subAddNormal_cases hs h with ⟨m, -, -, rfl⟩ | ⟨-, hrot⟩ |
    ⟨-, -, t, subs, hslot, hlink, -, -, -, hrot⟩
  · exact .refl s
  · exact .of_contexts hrot.contexts
  · exact (IndexGrows.update hlink.contexts (grows_of_slot hslot)).congr_right hrot.contexts

theorem indexGrows_subAddShared (hs : Inv env s) (c : ClientRef) (sub : Subscription)
    (a : Addr) (g : String) : IndexGrows s (subAddShared env c sub a g s).2 := by
  rcases h : subAddShared env c sub a g s with ⟨rc, s'⟩
  rcases subAddShared_cases hs h with ⟨m, -, -, rfl⟩ | ⟨-, hrot⟩ |
    ⟨-, -, l, subs, hslot, hlink, -⟩
  · exact .refl s
  · exact .of_contexts hrot.contexts
  · exact .update hlink.contexts (grows_of_slot hslot)

theorem indexGrows_subAddContext (hs : Inv env s) (c : ClientRef) (sub : Subscription)
    {a : Addr} (ha : (s.hier a).isSome) (ts : List String) (g : Option String) :
    IndexGrows s (subAddContext env c sub a ts g s).2 := by
  obtain ⟨hw, hb⟩ := inv_addContextWalk ts hs ha
  have hctx : (walkEnd (addContextWalk env a ts s)).contexts = s.contexts :=
    contexts_walkEnd ts a s
  unfold subAddContext
  split
  · rename_i r heq
    rw [heq] at hctx
    exact .of_contexts hctx
  · rename_i b s₁ heq
    rw [heq] at hw hctx
    refine IndexGrows.congr_left hctx ?_
    split_ifs
    · cases g with
      | some g => exact indexGrows_subAddShared hw c sub b g
      | none => exact indexGrows_subAddNormal hw.lists c sub b
    · exact .refl s₁

theorem indexGrows_subAdd (hs : Inv env s) (c : ClientRef) (sub : Subscription)
    (ts : List String) (g : Option String) : IndexGrows s (subAdd env c sub ts g s).2 := by
  unfold subAdd
  split
  · exact .refl s
  rename_i t0 rest
  split_ifs
  · exact .refl s
  split
  · rename_i n hn
    exact indexGrows_subAddContext hs c sub (by simp [hn]) _ _
  · rename_i hn
    obtain ⟨h₁, h₂⟩ := inv_subAddHierEntry_root hs hn
    have hctx : (subAddHierEntry env none t0 s).2.contexts = s.contexts :=
      contexts_subAddHierEntry _ _ _
    split
    · rename_i a s₁ heq
      rw [heq] at h₁ h₂ hctx
      exact (indexGrows_subAddContext h₁ c sub (h₂ a rfl).2 _ _).congr_left hctx
    · rename_i s₁ heq
      rw [heq] at hctx
      exact .of_contexts hctx

/-! ### Unsubscribing -/

theorem indexGrows_removeFromIndex (c : ClientRef) (l : LeafRef) (h : t.contexts = s.contexts) :
    IndexGrows s (removeFromIndex c l t) := by
  unfold removeFromIndex
  dsimp only
  split
  · rename_i subs hf
    rw [h] at hf ⊢
    exact .update (by simp [h]) (show Grows (s.contexts c) ⟨subs, (s.contexts c).subsCount - 1⟩
      from .inl (freeSlot_length hf))
  · exact .of_contexts h

theorem indexGrows_subRemoveNormal (c : ClientRef) (a : Addr) (reason : UInt8) (s : Broker) :
    IndexGrows s (subRemoveNormal env c a reason s).2.2 := by
  unfold subRemoveNormal
  split
  · exact .refl s
  · rename_i l _
    dsimp only
    split_ifs
    · refine IndexGrows.congr_right ?_ (subUpdateSubscribedTopics_rot env a _).contexts
      exact indexGrows_removeFromIndex c l rfl
    · exact indexGrows_removeFromIndex c l rfl

theorem indexGrows_subRemoveShared (c : ClientRef) (a : Addr) (reason : UInt8) (g : String)
    (s : Broker) : IndexGrows s (subRemoveShared env c a reason g s).2.2 := by
  unfold subRemoveShared
  split
  · exact .refl s
  · rename_i l _
    dsimp only
    split_ifs <;> exact indexGrows_removeFromIndex c l rfl

theorem contexts_pruneChild (a : Addr) (k : String) (s : Broker) :
    (pruneChild a k s).contexts = s.contexts := by
  unfold pruneChild
  split
  · split_ifs <;> rfl
  · rfl

theorem indexGrows_subRemoveRecurse (c : ClientRef) (g : Option String) (ts : List String) :
    ∀ (a : Addr) (reason : UInt8) (s : Broker),
      IndexGrows s (subRemoveRecurse env c g a ts reason s).2.2 := by
  induction ts with
  | nil =>
    intro a reason s
    cases g with
    | some g => exact indexGrows_subRemoveShared c a reason g s
    | none => exact indexGrows_subRemoveNormal c a reason s
  | cons k ts ih =>
    intro a reason s
    unfold subRemoveRecurse
    split
    · exact .refl s
    · exact (ih _ _ _).congr_right (contexts_pruneChild _ _ _)

theorem indexGrows_subRemove (c : ClientRef) (ts : List String) (g : Option String)
    (reason : UInt8) (s : Broker) : IndexGrows s (subRemove env c ts g reason s).2.2 := by
  unfold subRemove
  split
  · exact .refl s
  split
  · exact indexGrows_subRemoveRecurse c g _ _ _ s
  · exact .refl s

/-! ### Session cleanup -/

theorem contexts_unlinkOwn (c : ClientRef) (a : Addr) (g : Option String) (s : Broker) :
    (unlinkOwn env c a g s).contexts = s.contexts := by
  unfold unlinkOwn
  split
  · split
    · simp only [subRemoveSharedLeaf]
      split_ifs <;> rfl
    · rfl
  · split
    · dsimp only
      split_ifs
      · exact (subUpdateSubscribedTopics_rot env a _).contexts
      · rfl
    · rfl

theorem contexts_cleanSlot (c : ClientRef) (x : Option LeafRef) (s : Broker) :
    (cleanSlot env c x s).contexts = s.contexts := by
  unfold cleanSlot
  split
  · rfl
  split
  · rfl
  split
  · rfl
  · rw [pruneEmpty_eq]
    exact contexts_unlinkOwn _ _ _ _

theorem contexts_subCleanSession (c : ClientRef) (s : Broker) :
    (subCleanSession env c s).2.contexts = Function.update s.contexts c ⟨[], 0⟩ := by
  suffices ∀ (xs : List (Option LeafRef)) (s : Broker),
      (xs.foldl (fun s slot => cleanSlot env c slot s) s).contexts = s.contexts by
    simp [subCleanSession, this]
  intro xs
  induction xs with
  | nil => exact fun _ => rfl
  | cons x xs ih => exact fun s => (ih _).trans (contexts_cleanSlot c x s)

/-! ## Runs -/

/-- Whether the call is the client's own `sub__clean_session`. -/
def cleansSession (c : ClientRef) : Op → Bool
  | .subCleanSession c' => c' == c
  | _ => false

theorem grows_run (hs : Inv env s) {op : Op} {c : ClientRef} (h : cleansSession c op = false) :
    Grows (s.contexts c) ((op.run env s).2.contexts c) := by
  cases op with
  | subAdd c' sub ts g => exact indexGrows_subAdd hs c' sub ts g c
  | subRemove c' ts g r => exact indexGrows_subRemove c' ts g r s c
  | subCleanSession c' =>
    have hc : c ≠ c' := fun e => by simp [cleansSession, e] at h
    simp only [Op.run, contexts_subCleanSession, Function.update_noteq hc]
    exact .inl rfl
  | subMessagesQueue src t ts q r m =>
    exact .inl (by rw [Op.run, (subMessagesQueue_rot env t q r m src ts s).contexts])

theorem context_run_of_cleans {op : Op} {c : ClientRef} (h : cleansSession c op = true) :
    (op.run env s).2.contexts c = ⟨[], 0⟩ := by
  cases op <;> simp_all [cleansSession, Op.run, contexts_subCleanSession]

theorem capacity_run (hs : Inv env s) (op : Op) (c : ClientRef) :
    (((op.run env s).2.contexts c).subs.length : Int) =
      if cleansSession c op then 0
      else max ((s.contexts c).subs.length : Int) ((op.run env s).2.contexts c).subsCount := by
  cases hc : cleansSession c op
  · have hle := count_le_capacity ((inv_run hs op).slots c)
    rcases grows_run hs hc with h | ⟨l, hl, h⟩
    · simp only [h, Bool.false_eq_true, if_false] at hle ⊢
      omega
    · have hfull := assignSlot_none hl
      have hcount := (hs.slots c).count
      simp only [held] at hcount
      simp only [h, Bool.false_eq_true, if_false, List.length_append, List.length_singleton]
      omega
  · simp [context_run_of_cleans hc]

/-- The runs of `Reachable`, indexed by the largest value the client `c`'s `subs_count`
has taken since its last `sub__clean_session` (0 before any subscription). -/
inductive PeakRun (env : Env) (ok : Op → Int → Prop) (c : ClientRef) : Broker → Int → Prop
  | init {s : Broker} : Initial s → PeakRun env ok c s 0
  | step {s : Broker} {n : Int} (op : Op) : PeakRun env ok c s n → ok op (op.run env s).1 →
      PeakRun env ok c (op.run env s).2
        (if cleansSession c op then 0 else max n ((op.run env s).2.contexts c).subsCount)

section Peak

variable {ok : Op → Int → Prop} {c : ClientRef} {n : Int}

theorem PeakRun.reachable (h : PeakRun env ok c s n) : Reachable env ok s := by
  induction h with
  | init hi => exact .init hi
  | step op _ hok ih => exact .step op ih hok

theorem PeakRun.next {m : Int} (h : PeakRun env ok c s n) (op : Op) (hok : ok op (op.run env s).1)
    (hm : (if cleansSession c op then 0 else max n ((op.run env s).2.contexts c).subsCount) = m) :
    PeakRun env ok c (op.run env s).2 m :=
  hm ▸ .step op h hok

/-- Along every run, the capacity of the client's array, its length, is the largest
`subs_count` the client has had since its last session cleanup. -/
theorem capacity_eq_peak (h : PeakRun env ok c s n) : ((s.contexts c).subs.length : Int) = n := by
  induction h with
  | init hi => simp [hi.contexts c]
  | step op hrun _ ih => rw [capacity_run (inv_reachable hrun.reachable) op c, ih]

theorem capacity_eq_peak_churn :
    let env : Env := plainEnv false
    let s₁ := ((Op.subAdd 1 ⟨"a", 0, 0⟩ ["", "a"] none).run env openedBroker).2
    let s₂ := ((Op.subAdd 1 ⟨"b", 0, 0⟩ ["", "b"] none).run env s₁).2
    let s₃ := ((Op.subRemove 1 ["", "a"] none 0).run env s₂).2
    let s₄ := ((Op.subAdd 1 ⟨"c", 0, 0⟩ ["", "c"] none).run env s₃).2
    PeakRun env (fun _ _ => True) 1 s₄ 2 ∧ ((s₄.contexts 1).subs.length : Int) = 2 := by
  intro env s₁ s₂ s₃ s₄
  have h₁ : PeakRun env (fun _ _ => True) 1 s₁ 1 :=
    (PeakRun.init initial_openedBroker).next _ trivial (by decide)
  have h₂ : PeakRun env (fun _ _ => True) 1 s₂ 2 := h₁.next _ trivial (by decide)
  have h₃ : PeakRun env (fun _ _ => True) 1 s₃ 2 := h₂.next _ trivial (by decide)
  have h₄ : PeakRun env (fun _ _ => True) 1 s₄ 2 := h₃.next _ trivial (by decide)
  exact ⟨h₄, capacity_eq_peak h₄⟩

end Peak

end MosquittoSubs.Index
