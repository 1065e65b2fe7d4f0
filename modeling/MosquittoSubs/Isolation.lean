import MosquittoSubs.Refinement
import MosquittoSubs.Index
import MosquittoSubs.Rotation

set_option autoImplicit false

/-!
# What one client's calls leave of another's

Each call into the engine is made for one client, or for none (a publish). It writes no
other client's `subs` array and, when distinct clients have distinct ids, changes none of
its subscriptions. So however other clients' calls and publishes interleave, a client's
subscriptions and its array stay as its own calls left them.
-/

namespace MosquittoSubs.Isolation
open Model Publish SysTree Subscribe Unsubscribe Clean Run Frame Invariant Preservation
  SubscribeSpec Index Rotation Refinement

/-- The client a call is made for; a publish is made for none. -/
def caller : Op → Option ClientRef
  | .subAdd c .. => some c
  | .subRemove c .. => some c
  | .subCleanSession c => some c
  | .subMessagesQueue .. => none

/-- `t` has the client arrays of `s`, except perhaps the array of `c`. -/
def Touches (c : ClientRef) (s t : Broker) : Prop :=
  ∀ c', c' ≠ c → t.contexts c' = s.contexts c'

variable {env : Env} {c : ClientRef} {s t u : Broker}

namespace Touches

theorem of_contexts (h : t.contexts = s.contexts) : Touches c s t :=
  fun _ _ => by rw [h]

theorem refl (c : ClientRef) (s : Broker) : Touches c s s := of_contexts rfl

theorem update {ctx : Context} (h : t.contexts = Function.update s.contexts c ctx) :
    Touches c s t :=
  fun _ hc => by rw [h, Function.update_noteq hc]

theorem trans (h₁ : Touches c s t) (h₂ : Touches c t u) : Touches c s u :=
  fun c' hc => (h₂ c' hc).trans (h₁ c' hc)

theorem congr_left (h : u.contexts = s.contexts) (hg : Touches c u t) : Touches c s t :=
  (of_contexts h).trans hg

theorem congr_right (hg : Touches c s t) (h : u.contexts = t.contexts) : Touches c s u :=
  hg.trans (of_contexts h)

end Touches

/-! ## Subscribing -/

theorem touches_subAddNormal (hs : Lists env s) (c : ClientRef) (sub : Subscription) (a : Addr) :
    Touches c s (subAddNormal env c sub a s).2 := by
  rcases h : subAddNormal env c sub a s with ⟨rc, s'⟩
  rcases subAddNormal_cases hs h with ⟨m, -, -, rfl⟩ | ⟨-, hrot⟩ |
    ⟨-, -, t, subs, -, hlink, -, -, -, hrot⟩
  · exact .refl c s
  · exact .of_contexts hrot.contexts
  · exact (Touches.update hlink.contexts).congr_right hrot.contexts

theorem touches_subAddShared (hs : Inv env s) (c : ClientRef) (sub : Subscription) (a : Addr)
    (g : String) : Touches c s (subAddShared env c sub a g s).2 := by
  rcases h : subAddShared env c sub a g s with ⟨rc, s'⟩
  rcases subAddShared_cases hs h with ⟨m, -, -, rfl⟩ | ⟨-, hrot⟩ | ⟨-, -, l, subs, -, hlink, -⟩
  · exact .refl c s
  · exact .of_contexts hrot.contexts
  · exact .update hlink.contexts

theorem touches_subAddContext (hs : Inv env s) (c : ClientRef) (sub : Subscription) {a : Addr}
    (ha : (s.hier a).isSome) (ts : List String) (g : Option String) :
    Touches c s (subAddContext env c sub a ts g s).2 := by
  obtain ⟨hw, -⟩ := inv_addContextWalk ts hs ha
  have hctx : (walkEnd (addContextWalk env a ts s)).contexts = s.contexts := contexts_walkEnd ts a s
  rcases h : addContextWalk env a ts s with ⟨rc, t⟩ | ⟨b, s₁⟩ <;>
    simp only [h, walkEnd] at hw hctx
  · simpa only [subAddContext, h] using Touches.of_contexts hctx
  · rw [subAddContext_of_ok h]
    refine Touches.congr_left hctx ?_
    split_ifs
    · cases g with
      | some g => exact touches_subAddShared hw c sub b g
      | none => exact touches_subAddNormal hw.lists c sub b
    · exact .refl c s₁

theorem touches_subAdd (hs : Inv env s) (c : ClientRef) (sub : Subscription) (ts : List String)
    (g : Option String) : Touches c s (subAdd env c sub ts g s).2 := by
  unfold subAdd
  split
  · exact .refl c s
  rename_i t0 rest
  split_ifs
  · exact .refl c s
  split
  · rename_i n hn
    exact touches_subAddContext hs c sub (by simp [hn]) _ _
  · rename_i hn
    obtain ⟨h₁, h₂⟩ := inv_subAddHierEntry_root hs hn
    have hctx : (subAddHierEntry env none t0 s).2.contexts = s.contexts :=
      contexts_subAddHierEntry _ _ _
    split
    · rename_i a s₁ heq
      rw [heq] at h₁ h₂ hctx
      exact (touches_subAddContext h₁ c sub (h₂ a rfl).2 _ _).congr_left hctx
    · rename_i s₁ heq
      rw [heq] at hctx
      exact .of_contexts hctx

/-! ## Unsubscribing and cleaning up -/

theorem touches_removeFromIndex (c : ClientRef) (l : LeafRef) (h : t.contexts = s.contexts) :
    Touches c s (removeFromIndex c l t) := by
  unfold removeFromIndex
  dsimp only
  split
  · exact fun c' hc => by simp [Function.update_noteq hc, h]
  · exact .of_contexts h

theorem touches_subRemoveNormal (c : ClientRef) (a : Addr) (reason : UInt8) (s : Broker) :
    Touches c s (subRemoveNormal env c a reason s).2.2 := by
  unfold subRemoveNormal
  split
  · exact .refl c s
  · dsimp only
    split_ifs
    · refine Touches.congr_right ?_ (subUpdateSubscribedTopics_rot env a _).contexts
      exact touches_removeFromIndex c _ rfl
    · exact touches_removeFromIndex c _ rfl

theorem touches_subRemoveShared (c : ClientRef) (a : Addr) (reason : UInt8) (g : String)
    (s : Broker) : Touches c s (subRemoveShared env c a reason g s).2.2 := by
  unfold subRemoveShared
  split
  · exact .refl c s
  · dsimp only
    split_ifs <;> exact touches_removeFromIndex c _ rfl

theorem touches_subRemoveRecurse (c : ClientRef) (g : Option String) (ts : List String) :
    ∀ (a : Addr) (reason : UInt8) (s : Broker),
      Touches c s (subRemoveRecurse env c g a ts reason s).2.2 := by
  induction ts with
  | nil =>
    intro a reason s
    cases g with
    | some g => exact touches_subRemoveShared c a reason g s
    | none => exact touches_subRemoveNormal c a reason s
  | cons k ts ih =>
    intro a reason s
    unfold subRemoveRecurse
    split
    · exact .refl c s
    · exact (ih _ _ _).congr_right (contexts_pruneChild _ _ _)

theorem touches_subRemove (c : ClientRef) (ts : List String) (g : Option String)
    (reason : UInt8) (s : Broker) : Touches c s (subRemove env c ts g reason s).2.2 := by
  unfold subRemove
  split
  · exact .refl c s
  split
  · exact touches_subRemoveRecurse c g _ _ _ s
  · exact .refl c s

/-! ## Calls and runs -/

theorem contexts_run_of_ne (hs : Inv env s) (op : Op) (hc : caller op ≠ some c) :
    (op.run env s).2.contexts c = s.contexts c := by
  cases op with
  | subAdd c' sub ts g =>
    exact touches_subAdd hs c' sub ts g c fun e => hc (by rw [e]; rfl)
  | subRemove c' ts g r =>
    exact touches_subRemove c' ts g r s c fun e => hc (by rw [e]; rfl)
  | subCleanSession c' =>
    exact Touches.update (contexts_subCleanSession c' s) c fun e => hc (by rw [e]; rfl)
  | subMessagesQueue src topic ts q r m =>
    exact (subMessagesQueue_rot env topic q r m src ts s).contexts ▸ rfl

theorem effect_of_ne (op : Op) (rc : Int) (S : Store) (hc : caller op ≠ some c) :
    effect env op rc S c = S c := by
  have hne : ∀ c', caller op = some c' → c ≠ c' := fun c' h e => hc (e ▸ h)
  funext x
  cases op with
  | subAdd c' sub ts g =>
    simp only [effect]
    split_ifs
    · simp [Store.subscribe, hne c' rfl]
    · rfl
  | subRemove c' ts g r => simp [effect, Store.unsubscribe, hne c' rfl]
  | subCleanSession c' => simp [effect, Store.clean, hne c' rfl]
  | subMessagesQueue => rfl

/-- Client isolation: in every reachable state, however other clients' calls and publishes
interleave after it, a client's subscriptions and its `subs` array stay as they were, when
distinct clients have distinct ids. -/
theorem runOps_isolated (hids : IdsDistinct env) {ok : Op → Int → Prop} (h : Reachable env ok s)
    (c : ClientRef) (ops : List Op) (hops : ∀ op ∈ ops, caller op ≠ some c) :
    storeOf (runOps env ops s) c = storeOf s c ∧ (runOps env ops s).contexts c = s.contexts c := by
  have hs := inv_reachable h
  clear h
  induction ops generalizing s with
  | nil => exact ⟨rfl, rfl⟩
  | cons op ops ih =>
    have hop := hops op (List.mem_cons_self _ _)
    obtain ⟨e₁, e₂⟩ := ih (fun op' h' => hops op' (List.mem_cons_of_mem _ h')) (inv_run hs op)
    refine ⟨e₁.trans ?_, e₂.trans (contexts_run_of_ne hs op hop)⟩
    rw [storeOf_run hids hs op, effect_of_ne op _ _ hop]

theorem runOps_isolated_other_client :
    let s := ((Op.subAdd 1 ⟨"a", 0, 0⟩ ["", "a"] none).run (plainEnv false) emptyBroker).2
    let ops := [Op.subAdd 2 ⟨"a", 0, 1⟩ ["", "a"] none,
      .subMessagesQueue (some "b") "a" ["", "a"] 1 false ⟨"m", 1, false⟩, .subCleanSession 2]
    IdsDistinct (plainEnv false) ∧ Reachable (plainEnv false) (fun _ _ => True) s ∧
      (∀ op ∈ ops, caller op ≠ some 1) ∧
      storeOf (runOps (plainEnv false) ops s) 1 = storeOf s 1 ∧
      (runOps (plainEnv false) ops s).contexts 1 = s.contexts 1 :=
  ⟨idsDistinct_plainEnv false, .step _ (.init initial_emptyBroker) trivial, by decide,
    runOps_isolated (idsDistinct_plainEnv false)
      (@Reachable.step (plainEnv false) (fun _ _ => True) _ _ (.init initial_emptyBroker) trivial) 1 _
      (by decide)⟩

end MosquittoSubs.Isolation
