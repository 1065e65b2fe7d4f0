import MosquittoSubs.Frame
import MosquittoSubs.Run

set_option autoImplicit false

/-!
# What a publish queues

`subs__send` hands a message to `db__message_insert_outgoing` only once `mosquitto_acl_check`
has allowed the leaf's client the topic, and builds it from the leaf: the subscription's QoS
when the broker upgrades outgoing QoS or when it is below the message's, the message's
otherwise; a packet identifier exactly when that QoS is not 0; the retain flag only under
retain-as-published; the subscription's identifier. Over a whole publish the outgoing queue
then gains exactly one such message for each leaf the search hands to `subs__send` whose
client the check allows, in the order of those calls. The search is taken apart once, for
any relation between states that each `subs__send` call and each turn of a group keep.
-/

namespace MosquittoSubs.Queued
open Model Publish Frame Run

/-! ## The search, once for any property of its blocks -/

/-- What a property `P` of the blocks of `sub__search` needs, for calls whose results satisfy
`Q` against the state they started from: an absorbed result has `P`, a block that does
nothing has `P`, `P` carries over a block that goes on, and a finished walk satisfies `Q`. -/
structure WalkProp (Q : Broker → Int × Broker → Prop) (P : Broker → Walk → Prop) : Prop where
  absorb : ∀ {s r} (found : Bool), Q s r → P s (Walk.absorb found r)
  stay : ∀ s found, P s (.going found s)
  comp : ∀ {s f t w}, P s (.going f t) → P t w → P s w
  finish : ∀ {s w}, P s w → Q s w.finish

namespace WalkProp

variable {Q : Broker → Int × Broker → Prop} {P : Broker → Walk → Prop} (hW : WalkProp Q P)
include hW

theorem bind {s : Broker} {w : Walk} {k : Bool → Broker → Walk} (hw : P s w)
    (hk : ∀ f t, P t (k f t)) : P s (w.bind k) := by
  cases w with
  | going f t => exact hW.comp hw (hk f t)
  | returned rc t => exact hw

variable {process search : Addr → Broker → Int × Broker} (hp : ∀ b t, Q t (process b t))
include hp

theorem branch (hs : ∀ b t, Q t (search b t)) (last : Bool) (b : Addr) (found : Bool)
    (s : Broker) : P s (searchBranch process search last b found s) := by
  unfold searchBranch
  split
  · exact hW.stay s found
  · refine hW.bind (hW.absorb found (hs b s)) fun f t => ?_
    split
    · exact hW.absorb f (hp b t)
    · exact hW.stay t f

theorem hash (a : Addr) (found : Bool) (s : Broker) : P s (searchHash process a found s) := by
  unfold searchHash
  split
  · split
    · exact hW.absorb found (hp _ s)
    · exact hW.stay s found
  · exact hW.stay s found

end WalkProp

theorem subSearch_of_walkProp {Q : Broker → Int × Broker → Prop} {P : Broker → Walk → Prop}
    (hW : WalkProp Q P) {env : Env} {src : Option String} {topic : String} {qos : UInt8}
    {retain : Bool} {stored : BaseMsg}
    (hp : ∀ a s, Q s (subsProcess env topic qos retain stored src a s)) (ts : List String) :
    ∀ a s, Q s (subSearch env src topic qos retain stored a ts s) := by
  induction ts with
  | nil => exact fun a s => hW.finish (hW.hash hp a false s)
  | cons t rest ih =>
    intro a s
    rw [subSearch]
    exact hW.finish (hW.bind (hW.branch hp ih _ _ _ s) fun f u =>
      hW.bind (hW.branch hp ih _ _ _ u) fun f' v => hW.hash hp a f' v)

theorem walkProp_rel {R : Broker → Broker → Prop} (hrefl : ∀ s, R s s)
    (htrans : ∀ {s t u}, R s t → R t u → R s u) :
    WalkProp (fun s r => R s r.2) (fun s w => R s w.broker) where
  absorb found h := by rwa [absorb_broker]
  stay s _ := hrefl s
  comp h₁ h₂ := htrans h₁ h₂
  finish {_ w} h := by cases w <;> exact h

section Search

variable {env : Env} {topic : String} {qos : UInt8} {retain : Bool} {stored : BaseMsg}
  {R : Broker → Broker → Prop} (hrefl : ∀ s, R s s)
  (htrans : ∀ {s t u}, R s t → R t u → R s u)
  (hsend : ∀ l s, R s (subsSend env l topic qos retain stored s).2)
  (hturn : ∀ (s : Broker) a g l rest, s.subs (.shared a g) = l :: rest →
    R s (s.setSubs (.shared a g) (rest ++ [l])))
include hrefl htrans hsend hturn

theorem subsSharedProcess_induction (a : Addr) :
    ∀ (gs : List String) (rc : Int) (s : Broker),
      R s (subsSharedProcess env topic qos retain stored a gs rc s).2
  | [], _, s => hrefl s
  | g :: gs, rc, s => by
    unfold subsSharedProcess
    split
    · exact subsSharedProcess_induction a gs rc s
    · rename_i l rest hl
      obtain ⟨_, _, e⟩ := subsSend_logs env topic qos retain stored l s
      have hturn' := hturn (subsSend env l topic qos retain stored s).2 a g l rest (by rw [e]; exact hl)
      exact htrans (htrans (hsend l s) hturn') (subsSharedProcess_induction a gs _ _)

omit hturn in
theorem sendLeaves_induction (src : String) :
    ∀ (ls : List LeafRef) (rc : Int) (s : Broker),
      R s (sendLeaves env topic qos retain stored src ls rc s).2
  | [], _, s => hrefl s
  | l :: ls, rc, s => by
    unfold sendLeaves
    split
    · exact sendLeaves_induction src ls rc s
    · exact htrans (hsend l s) (sendLeaves_induction src ls _ _)

theorem subsProcess_induction (src : Option String) (a : Addr) (s : Broker) :
    R s (subsProcess env topic qos retain stored src a s).2 := by
  unfold subsProcess
  have h₁ := subsSharedProcess_induction hrefl htrans hsend hturn a (s.groups a) 0 s
  cases src with
  | none => exact h₁
  | some src => exact htrans h₁ (sendLeaves_induction hrefl htrans hsend src _ _ _)

theorem subSearch_induction (src : Option String) (a : Addr) (ts : List String) (s : Broker) :
    R s (subSearch env src topic qos retain stored a ts s).2 :=
  subSearch_of_walkProp (walkProp_rel hrefl htrans)
    (subsProcess_induction hrefl htrans hsend hturn src) ts a s

theorem subMessagesQueue_induction (src : Option String) (ts : List String) (s : Broker) :
    R s (subMessagesQueue env src topic ts qos retain stored s).2 := by
  cases ts with
  | nil => exact hrefl s
  | cons t0 rest =>
    have h : R s (match s.hier [t0] with
        | some _ => subSearch env src topic qos retain stored [t0] (t0 :: rest) s
        | none => (MosqErr.success, s)).2 := by
      split
      · exact subSearch_induction hrefl htrans hsend hturn src _ _ s
      · exact hrefl s
    simp only [subMessagesQueue]
    split_ifs <;> exact h

end Search

/-! ## The outgoing queue -/

/-- The message `subs__send` queues for a leaf, once `mosquitto_acl_check` has allowed its
client the topic: for that client, at the subscription's QoS when the broker upgrades
outgoing QoS or when it is below the message's and at the message's otherwise, with a
packet identifier exactly when that QoS is not 0, retained only when the message is and the
subscription has retain-as-published, and with the subscription's identifier. -/
def QueuedFor (env : Env) (topic : String) (qos : UInt8) (retain : Bool) (stored : BaseMsg)
    (leaf : Subleaf) (o : Outgoing) : Prop :=
  env.aclCheck leaf.context topic stored = MosqErr.success ∧ o.context = leaf.context ∧
    o.qos = (if env.upgradeOutgoingQos ∨ mqttSubOptGetQos leaf.subscriptionOptions < qos then
      mqttSubOptGetQos leaf.subscriptionOptions else qos) ∧
    (o.mid = 0 ↔ o.qos = 0) ∧
    (o.retain = true ↔ retain = true ∧ mqttSubOptGetRetainAsPublished leaf.subscriptionOptions ≠ 0) ∧
    o.identifier = leaf.identifier

/-- Whether the ACL check allows the client of the leaf at `l` the topic. -/
def allowed (env : Env) (topic : String) (stored : BaseMsg) (s : Broker) (l : LeafRef) : Bool :=
  match s.leaves l with
  | some leaf => env.aclCheck leaf.context topic stored = MosqErr.success
  | none => false

/-- `t` is `s` with the leaves `L` handed to `subs__send` and the messages `O` queued: one for
each leaf of `L` whose client the check allows, in order, built from it. -/
def Queues (env : Env) (topic : String) (qos : UInt8) (retain : Bool) (stored : BaseMsg)
    (s t : Broker) : Prop :=
  t.leaves = s.leaves ∧ ∃ L O, t.sends = s.sends ++ L ∧ t.outgoing = s.outgoing ++ O ∧
    List.Forall₂ (fun l o => ∃ leaf, s.leaves l = some leaf ∧ QueuedFor env topic qos retain stored leaf o)
      (L.filter (allowed env topic stored s)) O

variable {env : Env} {topic : String} {qos : UInt8} {retain : Bool} {stored : BaseMsg}

theorem midGenerate_ne_zero (c : ClientRef) (s : Broker) : (midGenerate c s).1 ≠ 0 := by
  unfold midGenerate
  dsimp only
  split_ifs with h
  · decide
  · exact h

section Mid

variable (b : Prop) [Decidable b] (c : ClientRef) (s : Broker)

/-! What `subs__send` keeps of the state whether or not it takes a packet identifier. -/

theorem sends_ite_midGenerate : (if b then midGenerate c s else (0, s)).2.sends = s.sends := by
  split <;> rfl

theorem outgoing_ite_midGenerate :
    (if b then midGenerate c s else (0, s)).2.outgoing = s.outgoing := by
  split <;> rfl

theorem fst_ite_midGenerate_eq_zero : (if b then midGenerate c s else (0, s)).1 = 0 ↔ ¬b := by
  split
  · rename_i hb
    exact ⟨fun h => absurd h (midGenerate_ne_zero c s), fun h => absurd hb h⟩
  · rename_i hb
    exact ⟨fun _ => hb, fun _ => rfl⟩

end Mid

theorem queues_refl (s : Broker) : Queues env topic qos retain stored s s :=
  ⟨rfl, [], [], (List.append_nil _).symm, (List.append_nil _).symm, .nil⟩

theorem queues_trans {s t u : Broker} (h₁ : Queues env topic qos retain stored s t)
    (h₂ : Queues env topic qos retain stored t u) : Queues env topic qos retain stored s u := by
  obtain ⟨e₁, L₁, O₁, hs₁, ho₁, hq₁⟩ := h₁
  obtain ⟨e₂, L₂, O₂, hs₂, ho₂, hq₂⟩ := h₂
  have hal : allowed env topic stored t = allowed env topic stored s := by
    funext l
    simp only [allowed, e₁]
  rw [e₁, hal] at hq₂
  refine ⟨e₂.trans e₁, L₁ ++ L₂, O₁ ++ O₂, by rw [hs₂, hs₁, List.append_assoc],
    by rw [ho₂, ho₁, List.append_assoc], ?_⟩
  rw [List.filter_append]
  exact List.rel_append hq₁ hq₂

theorem queues_setSubs (s : Broker) (x : Host) (L : List LeafRef) :
    Queues env topic qos retain stored s (s.setSubs x L) :=
  queues_refl s

theorem queues_subsSend (l : LeafRef) (s : Broker) :
    Queues env topic qos retain stored s (subsSend env l topic qos retain stored s).2 := by
  obtain ⟨_, _, e⟩ := subsSend_logs env topic qos retain stored l s
  refine ⟨by rw [e], [l], ?_⟩
  unfold subsSend
  dsimp only
  split
  · rename_i hl
    exact ⟨[], rfl, (List.append_nil _).symm, by simp [allowed, hl]⟩
  · rename_i leaf hl
    by_cases hdenied : env.aclCheck leaf.context topic stored = MosqErr.aclDenied
    · rw [if_pos hdenied]
      exact ⟨[], rfl, (List.append_nil _).symm,
        by simp [allowed, hl, hdenied, MosqErr.aclDenied, MosqErr.success]⟩
    by_cases hallowed : env.aclCheck leaf.context topic stored = MosqErr.success
    · rw [if_neg hdenied, if_pos hallowed]
      refine ⟨[_], by simp only [sends_ite_midGenerate], by simp only [outgoing_ite_midGenerate]; rfl, ?_⟩
      simp only [List.filter_cons, allowed, hl, hallowed, decide_True, if_true, List.filter_nil]
      refine .cons ⟨leaf, hl, hallowed, rfl, ?_, ?_, ?_, rfl⟩ .nil
      · by_cases hu : env.upgradeOutgoingQos = true <;> simp [hu]
      · simp only [fst_ite_midGenerate_eq_zero, not_not]
      · dsimp only
        split_ifs <;> simp_all
    · rw [if_neg hdenied, if_neg hallowed]
      exact ⟨[], rfl, (List.append_nil _).symm, by simp [allowed, hl, hallowed]⟩

/-- What a publish queues: exactly one message for each leaf the search hands to
`subs__send` whose client the ACL check allows the topic, in the order of those calls, at
the QoS, packet identifier, retain flag and subscription identifier that the leaf's
subscription gives, and nothing else; from every state, for every topic and every behaviour
of the collaborators. -/
theorem subMessagesQueue_queued (src : Option String) (ts : List String) (s : Broker) :
    let t := (subMessagesQueue env src topic ts qos retain stored s).2
    ∃ L O, t.sends = s.sends ++ L ∧ t.outgoing = s.outgoing ++ O ∧
      List.Forall₂ (fun l o => ∃ leaf, s.leaves l = some leaf ∧
          QueuedFor env topic qos retain stored leaf o)
        (L.filter (allowed env topic stored s)) O :=
  (subMessagesQueue_induction queues_refl queues_trans queues_subsSend
    (fun s _ _ _ _ _ => queues_setSubs s _ _) src ts s).2

/-! ## What a publish returns -/

/-- `t` has the leaves of `s` and extends its logs of `subs__send` calls and queued
messages: what every step of a publish keeps. -/
def Seg (s t : Broker) : Prop :=
  t.leaves = s.leaves ∧ s.sends <+: t.sends ∧ s.outgoing <+: t.outgoing

/-- One of the `subs__send` calls made between `s` and `t` failed: `mosquitto_acl_check`
answered an error other than `MOSQ_ERR_ACL_DENIED`, or `db__message_insert_outgoing`
returned 1 for the message it was handed. -/
def SendFailed (env : Env) (topic : String) (stored : BaseMsg) (s t : Broker) : Prop :=
  (∃ l ∈ t.sends.drop s.sends.length, ∃ leaf, s.leaves l = some leaf ∧
      env.aclCheck leaf.context topic stored ≠ MosqErr.aclDenied ∧
      env.aclCheck leaf.context topic stored ≠ MosqErr.success) ∨
    ∃ o ∈ t.outgoing.drop s.outgoing.length, env.insertOutgoing o stored = 1

/-- The `rc` of a loop of `subs__send` calls that started from `rc₀`: set to 1 by a failure,
kept otherwise. -/
def Accum (failed : Prop) (rc₀ rc : Int) : Prop :=
  (failed → rc = 1) ∧ (¬ failed → rc = rc₀)

/-- A code that is 1 exactly when a call failed, and otherwise `MOSQ_ERR_SUCCESS` or
`MOSQ_ERR_NO_SUBSCRIBERS`. -/
def Reports (failed : Prop) (rc : Int) : Prop :=
  (rc = 1 ↔ failed) ∧ (rc = MosqErr.success ∨ rc = MosqErr.noSubscribers ∨ rc = 1)

theorem drop_append_of_extends {α : Type} {a b c : List α} (h₁ : a <+: b) (h₂ : b <+: c) :
    c.drop a.length = b.drop a.length ++ c.drop b.length := by
  obtain ⟨x, rfl⟩ := h₁
  obtain ⟨y, rfl⟩ := h₂
  simp

theorem Seg.refl (s : Broker) : Seg s s := ⟨rfl, List.prefix_refl _, List.prefix_refl _⟩

theorem Seg.trans {s t u : Broker} (h₁ : Seg s t) (h₂ : Seg t u) : Seg s u :=
  ⟨h₂.1.trans h₁.1, h₁.2.1.trans h₂.2.1, h₁.2.2.trans h₂.2.2⟩

theorem seg_of_queues {s t : Broker} (h : Queues env topic qos retain stored s t) : Seg s t := by
  obtain ⟨e, L, O, hs, ho, -⟩ := h
  exact ⟨e, hs ▸ List.prefix_append _ _, ho ▸ List.prefix_append _ _⟩

theorem not_sendFailed_self (s : Broker) : ¬ SendFailed env topic stored s s :=
  fun h => h.elim (fun ⟨_, hl, _⟩ => by simp at hl) fun ⟨_, ho, _⟩ => by simp at ho

theorem sendFailed_trans {s t u : Broker} (h₁ : Seg s t) (h₂ : Seg t u) :
    SendFailed env topic stored s u ↔
      SendFailed env topic stored s t ∨ SendFailed env topic stored t u := by
  unfold SendFailed
  rw [drop_append_of_extends h₁.2.1 h₂.2.1, drop_append_of_extends h₁.2.2 h₂.2.2, h₁.1]
  simp only [List.mem_append, or_and_right, exists_or]
  exact or_or_or_comm

theorem accum_trans {s t u : Broker} {rc₀ rc₁ rc₂ : Int} (h₁ : Seg s t) (h₂ : Seg t u)
    (ha : Accum (SendFailed env topic stored s t) rc₀ rc₁)
    (hb : Accum (SendFailed env topic stored t u) rc₁ rc₂) :
    Accum (SendFailed env topic stored s u) rc₀ rc₂ := by
  rw [Accum, sendFailed_trans h₁ h₂]
  refine ⟨fun h => ?_, fun h => (hb.2 fun h' => h (.inr h')).trans (ha.2 fun h' => h (.inl h'))⟩
  by_cases hu : SendFailed env topic stored t u
  · exact hb.1 hu
  · exact (hb.2 hu).trans (ha.1 (h.resolve_right hu))

theorem accum_send {s t : Broker} {rc₀ rc : Int} (h : Accum (SendFailed env topic stored s t) 0 rc) :
    Accum (SendFailed env topic stored s t) rc₀ (if rc ≠ 0 then 1 else rc₀) :=
  ⟨fun hf => by rw [h.1 hf]; rfl, fun hf => by rw [h.2 hf]; rfl⟩

theorem accum_ite {failed q : Prop} [Decidable q] (h : failed ↔ q) :
    Accum failed 0 (if q then 1 else MosqErr.success) :=
  ⟨fun hf => if_pos (h.mp hf), fun hf => if_neg (mt h.mpr hf)⟩

theorem sendFailed_queued {s : Broker} {l : LeafRef} {leaf : Subleaf} (hl : s.leaves l = some leaf)
    (hallowed : env.aclCheck leaf.context topic stored = MosqErr.success) (b : Prop) [Decidable b]
    (c : ClientRef) (out : Outgoing) :
    let m := if b then midGenerate c { s with sends := s.sends ++ [l] }
      else (0, { s with sends := s.sends ++ [l] })
    SendFailed env topic stored s { m.2 with outgoing := m.2.outgoing ++ [out] } ↔
      env.insertOutgoing out stored = 1 := by
  simp [SendFailed, sends_ite_midGenerate, outgoing_ite_midGenerate, hl, hallowed]

theorem sendFailed_send_iff {s : Broker} {l : LeafRef} :
    SendFailed env topic stored s { s with sends := s.sends ++ [l] } ↔
      ∃ leaf, s.leaves l = some leaf ∧ env.aclCheck leaf.context topic stored ≠ MosqErr.aclDenied ∧
        env.aclCheck leaf.context topic stored ≠ MosqErr.success := by
  simp [SendFailed]

theorem subsSend_accum (l : LeafRef) (s : Broker) :
    Accum (SendFailed env topic stored s (subsSend env l topic qos retain stored s).2) 0
      (subsSend env l topic qos retain stored s).1 := by
  unfold subsSend
  dsimp only
  split
  · rename_i hl
    refine ⟨fun h => ?_, fun _ => rfl⟩
    obtain ⟨_, h', -⟩ := sendFailed_send_iff.mp h
    rw [hl] at h'
    cases h'
  · rename_i leaf hl
    by_cases hdenied : env.aclCheck leaf.context topic stored = MosqErr.aclDenied
    · rw [if_pos hdenied]
      refine ⟨fun h => ?_, fun _ => rfl⟩
      obtain ⟨_, h', hd, -⟩ := sendFailed_send_iff.mp h
      rw [hl] at h'
      cases h'
      exact absurd hdenied hd
    by_cases hallowed : env.aclCheck leaf.context topic stored = MosqErr.success
    · rw [if_neg hdenied, if_pos hallowed]
      exact accum_ite (sendFailed_queued hl hallowed _ _ _)
    · rw [if_neg hdenied, if_neg hallowed]
      exact ⟨fun _ => rfl, fun h => absurd (sendFailed_send_iff.mpr ⟨leaf, hl, hdenied, hallowed⟩) h⟩

theorem subsSend_seg (l : LeafRef) (s : Broker) : Seg s (subsSend env l topic qos retain stored s).2 :=
  seg_of_queues (queues_subsSend l s)

section Loops

variable (env topic qos retain stored)

theorem subsSharedProcess_accum (a : Addr) : ∀ (gs : List String) (rc : Int) (s : Broker),
    let r := subsSharedProcess env topic qos retain stored a gs rc s
    Seg s r.2 ∧ Accum (SendFailed env topic stored s r.2) rc r.1
  | [], rc, s => ⟨.refl s, fun h => absurd h (not_sendFailed_self s), fun _ => rfl⟩
  | g :: gs, rc, s => by
    unfold subsSharedProcess
    split
    · exact subsSharedProcess_accum a gs rc s
    · rename_i l rest _
      have h₁ : Seg s (subsSend env l topic qos retain stored s).2 := subsSend_seg l s
      obtain ⟨h₂, hk⟩ := subsSharedProcess_accum a gs _
        ((subsSend env l topic qos retain stored s).2.setSubs (.shared a g) (rest ++ [l]))
      exact ⟨h₁.trans h₂, accum_trans h₁ h₂ (accum_send (subsSend_accum l s)) hk⟩

theorem sendLeaves_accum (src : String) : ∀ (ls : List LeafRef) (rc : Int) (s : Broker),
    let r := sendLeaves env topic qos retain stored src ls rc s
    Seg s r.2 ∧ Accum (SendFailed env topic stored s r.2) rc r.1
  | [], rc, s => ⟨.refl s, fun h => absurd h (not_sendFailed_self s), fun _ => rfl⟩
  | l :: ls, rc, s => by
    unfold sendLeaves
    split
    · exact sendLeaves_accum src ls rc s
    · have h₁ : Seg s (subsSend env l topic qos retain stored s).2 := subsSend_seg l s
      obtain ⟨h₂, hk⟩ := sendLeaves_accum src ls _ (subsSend env l topic qos retain stored s).2
      exact ⟨h₁.trans h₂, accum_trans h₁ h₂ (accum_send (subsSend_accum l s)) hk⟩

theorem reports_of_accum {failed : Prop} {rc : Int} (h : Accum failed 0 rc) : Reports failed rc := by
  by_cases hf : failed
  · exact ⟨⟨fun _ => hf, fun _ => h.1 hf⟩, .inr (.inr (h.1 hf))⟩
  · rw [h.2 hf]
    exact ⟨⟨fun h0 => absurd h0 (show MosqErr.success ≠ 1 by decide), fun h' => absurd h' hf⟩,
      .inl rfl⟩

theorem subsProcess_reports (src : Option String) (a : Addr) (s : Broker) :
    let r := subsProcess env topic qos retain stored src a s
    Seg s r.2 ∧ Reports (SendFailed env topic stored s r.2) r.1 := by
  by_cases hbare : s.subs (.normal a) = [] ∧ s.groups a = []
  · have e : subsProcess env topic qos retain stored src a s = (MosqErr.noSubscribers, s) := by
      cases src <;> simp [subsProcess, hbare.1, hbare.2, subsSharedProcess, sendLeaves]
    rw [e]
    exact ⟨.refl s, ⟨fun h => absurd h (show MosqErr.noSubscribers ≠ 1 by decide),
      fun h => absurd h (not_sendFailed_self s)⟩, .inr (.inl rfl)⟩
  obtain ⟨h₁, a₁⟩ := subsSharedProcess_accum env topic qos retain stored a (s.groups a) 0 s
  cases src with
  | none =>
    simp only [subsProcess, if_neg hbare]
    exact ⟨h₁, reports_of_accum a₁⟩
  | some src =>
    simp only [subsProcess, if_neg hbare]
    obtain ⟨h₂, a₂⟩ := sendLeaves_accum env topic qos retain stored src (s.subs (.normal a)) _
      (subsSharedProcess env topic qos retain stored a (s.groups a) 0 s).2
    exact ⟨h₁.trans h₂, reports_of_accum (accum_trans h₁ h₂ a₁ a₂)⟩

end Loops

/-- Where `sub__search` stands, against the state `s` it started from: still searching and
nothing failed, or returned 1 after a failure. -/
def WalkReports (env : Env) (topic : String) (stored : BaseMsg) (s : Broker) : Walk → Prop
  | .going _ t => Seg s t ∧ ¬ SendFailed env topic stored s t
  | .returned rc t => Seg s t ∧ rc = 1 ∧ SendFailed env topic stored s t

theorem absorb_reports {s : Broker} {r : Int × Broker} (found : Bool) (h : Seg s r.2)
    (hr : Reports (SendFailed env topic stored s r.2) r.1) :
    WalkReports env topic stored s (Walk.absorb found r) := by
  obtain ⟨rc, t⟩ := r
  dsimp only [Walk.absorb]
  split_ifs with h0 h1
  · exact ⟨h, fun hf => absurd (hr.1.mpr hf) (by simp [h0, MosqErr.success])⟩
  · exact ⟨h, fun hf => absurd (hr.1.mpr hf) (by simp [h1, MosqErr.noSubscribers])⟩
  · have hrc : rc = 1 := (hr.2.resolve_left h0).resolve_left h1
    exact ⟨h, hrc, hr.1.mp hrc⟩

theorem comp_reports {s t : Broker} {f : Bool} {w : Walk}
    (h : WalkReports env topic stored s (.going f t)) (hw : WalkReports env topic stored t w) :
    WalkReports env topic stored s w := by
  obtain ⟨h₁, hn⟩ := h
  cases w with
  | going f' u =>
    obtain ⟨h₂, hn₂⟩ := hw
    exact ⟨h₁.trans h₂, by rw [sendFailed_trans h₁ h₂]; exact fun h => h.elim hn hn₂⟩
  | returned rc u =>
    obtain ⟨h₂, hrc, hf⟩ := hw
    exact ⟨h₁.trans h₂, hrc, (sendFailed_trans h₁ h₂).mpr (.inr hf)⟩

theorem finish_reports {s : Broker} {w : Walk} (hw : WalkReports env topic stored s w) :
    Seg s w.finish.2 ∧ Reports (SendFailed env topic stored s w.finish.2) w.finish.1 := by
  cases w with
  | going f t =>
    obtain ⟨h, hn⟩ := hw
    have hcode : (Walk.going f t).finish.1 = MosqErr.success ∨
        (Walk.going f t).finish.1 = MosqErr.noSubscribers := by
      cases f <;> simp [Walk.finish]
    have hne : (Walk.going f t).finish.1 ≠ 1 := by
      rcases hcode with e | e <;> rw [e] <;> decide
    exact ⟨h, ⟨fun h1 => absurd h1 hne, fun hf => absurd hf hn⟩, hcode.imp_right .inl⟩
  | returned rc t =>
    obtain ⟨h, hrc, hf⟩ := hw
    exact ⟨h, ⟨fun _ => hf, fun _ => hrc⟩, .inr (.inr hrc)⟩

theorem walkProp_reports :
    WalkProp (fun s r => Seg s r.2 ∧ Reports (SendFailed env topic stored s r.2) r.1)
      (WalkReports env topic stored) where
  absorb found h := absorb_reports found h.1 h.2
  stay s _ := ⟨.refl s, not_sendFailed_self s⟩
  comp := comp_reports
  finish := finish_reports

theorem subSearch_reports (src : Option String) (ts : List String) (a : Addr) (s : Broker) :
    let r := subSearch env src topic qos retain stored a ts s
    Seg s r.2 ∧ Reports (SendFailed env topic stored s r.2) r.1 :=
  subSearch_of_walkProp walkProp_reports (subsProcess_reports env topic qos retain stored src) ts a s

/-- What a publish without the retain flag returns: 1 exactly when the topic was rejected or
one of the `subs__send` calls it made failed (the ACL check answered an error other than
`MOSQ_ERR_ACL_DENIED`, or `db__message_insert_outgoing` returned 1), and otherwise
`MOSQ_ERR_SUCCESS` or `MOSQ_ERR_NO_SUBSCRIBERS`; from every state, for every topic and every
behaviour of the collaborators. -/
theorem subMessagesQueue_reports (src : Option String) (ts : List String) (s : Broker)
    (hretain : retain = false) :
    let r := subMessagesQueue env src topic ts qos retain stored s
    (r.1 = 1 ↔ ts = [] ∨ SendFailed env topic stored s r.2) ∧
      (r.1 = MosqErr.success ∨ r.1 = MosqErr.noSubscribers ∨ r.1 = 1) := by
  subst hretain
  cases ts with
  | nil => exact ⟨by simp [subMessagesQueue], .inr (.inr rfl)⟩
  | cons t0 rest =>
    simp only [subMessagesQueue, Bool.false_eq_true, if_false, List.cons_ne_nil, false_or]
    split
    · exact (subSearch_reports src (t0 :: rest) _ s).2
    · exact ⟨⟨fun h => absurd h (show MosqErr.success ≠ 1 by decide),
        fun h => absurd h (not_sendFailed_self s)⟩, .inl rfl⟩

theorem subMessagesQueue_reports_publish :
    let r := subMessagesQueue (plainEnv false) (some "b") "a" ["", "a"] 1 false ⟨"m", 1, false⟩
      ((Op.subAdd 1 ⟨"a", 0, 0⟩ ["", "a"] none).run (plainEnv false) emptyBroker).2
    false = false ∧
      (r.1 = 1 ↔ ["", "a"] = [] ∨ SendFailed (plainEnv false) "a" ⟨"m", 1, false⟩
        ((Op.subAdd 1 ⟨"a", 0, 0⟩ ["", "a"] none).run (plainEnv false) emptyBroker).2 r.2) ∧
      (r.1 = MosqErr.success ∨ r.1 = MosqErr.noSubscribers ∨ r.1 = 1) :=
  ⟨rfl, subMessagesQueue_reports (some "b") ["", "a"] _ rfl⟩

end MosquittoSubs.Queued
