import CelerMem.Necto.Backpressure

/-! Injection from outside. All injected envelopes carry the sequence number 0 and the
one external sender, so the duplicate filter of an actor lets a single one through: the
sequences of `inject` calls that work are told from the others by what the receiver
remembers at each call. -/
namespace CelerMem.Necto
variable {σ : Type}

/-- A call of `inject`: the handle it met, what it put together, and what it returned. -/
structure Injection (σ : Type) where
  receiver : ActorHandle σ
  envelope : Envelope
  accepted : Bool

namespace ActorSystem

/-- `inject` puts this together. -/
def injected («to» : ActorRef) (payload : Bytes) : Envelope :=
  { seq := 0, «from» := external, «to», payload }

/-- A sequence of `inject` calls to one actor, which is ready at each of them, with any
other calls in between but no `channel_drain`. -/
inductive Injections («to» : ActorRef) (s : ActorSystem σ) :
    List (Injection σ) → ActorSystem σ → Prop where
  | start : Injections «to» s [] s
  | other {log : List (Injection σ)} {t u : ActorSystem σ} {call : Call σ}
      (prior : Injections «to» s log t) (hUndrained : ¬∃ ref, call = .channelDrain ref)
      (hStep : t.step call = some u) : Injections «to» s log u
  | inject {log : List (Injection σ)} {t : ActorSystem σ} {h : ActorHandle σ} (payload : Bytes)
      (prior : Injections «to» s log t) (hTo : t.handle? «to» = some h) (hReady : h.Ready) :
      Injections «to» s
        (log ++ [⟨h, injected «to» payload, (t.inject «to» payload).1⟩]) (t.inject «to» payload).2

/-- Every call returned true, and whenever the actor is ticked later on, without a
`channel_drain` in between, it has processed the injected envelopes in their order and
each of them as often as it was injected. -/
structure InjectedOnce («to» : ActorRef) (log : List (Injection σ)) (t : ActorSystem σ) : Prop where
  accepted : ∀ injection ∈ log, injection.accepted = true
  processed : ∀ u h, RunsUndrained t u → u.handle? «to» = some h → h.lifecycle = .active →
    ∃ h', (u.tick «to»).2.handle? «to» = some h' ∧
      (log.map Injection.envelope).Sublist (h'.processed.map Prod.fst) ∧
      ∀ injection ∈ log, (h'.processed.map Prod.fst).count injection.envelope =
        (log.map Injection.envelope).count injection.envelope

/-- The filter of the receiver did not remember the external sender. -/
def Unremembered (log : List (Injection σ)) : Prop :=
  ∀ injection ∈ log, injection.envelope.key ∉ injection.receiver.dedup.seen

variable {capacity : Nat} {s t : ActorSystem σ} {«to» : ActorRef} {log : List (Injection σ)}
variable {h : ActorHandle σ}

theorem Injections.reachable (hReach : s.Reachable capacity) (run : s.Injections «to» log t) :
    t.Reachable capacity := by
  induction run with
  | start => exact hReach
  | other prior hUndrained hStep ih => exact ih.tail _ hStep
  | @inject log t h payload prior hTo hReady ih => exact ih.tail (.inject «to» payload) rfl

/-- All of them carry the number 0 of the external sender. -/
theorem Injections.same_key (run : s.Injections «to» log t) :
    ∀ injection ∈ log, injection.envelope.key = (⟨external.index, 0⟩ : DedupSet.Key) := by
  induction run with
  | start => simp
  | other prior hUndrained hStep ih => exact ih
  | inject payload prior hTo hReady ih =>
      intro injection hMem
      rcases List.mem_append.mp hMem with hOld | hNew
      · exact ih injection hOld
      · rw [List.mem_singleton.mp hNew]
        rfl

/-- A call that meets a receiver which remembers the external sender returns false. -/
theorem Injections.unremembered (run : s.Injections «to» log t)
    (hAccepted : ∀ injection ∈ log, injection.accepted = true) : Unremembered log := by
  induction run with
  | start => simp [Unremembered]
  | other prior hUndrained hStep ih => exact ih hAccepted
  | @inject log t h payload prior hTo hReady ih =>
      intro injection hMem
      rcases List.mem_append.mp hMem with hOld | hNew
      · exact ih (fun other hOther => hAccepted other (List.mem_append_left _ hOther)) injection hOld
      · intro hSeen
        have hTrue := hAccepted injection hMem
        obtain rfl := List.mem_singleton.mp hNew
        have hFalse : (t.inject «to» payload).1 = false :=
          (@deliver_false_iff _ _ (injected «to» payload) _ hTo).mpr (.inr hSeen)
        exact Bool.false_ne_true (hFalse.symm.trans hTrue)

/-- The envelopes injected so far are among those that the actor has accepted. -/
def Kept («to» : ActorRef) (log : List (Injection σ)) (t : ActorSystem σ) : Prop :=
  log = [] ∨ ∃ h, t.handle? «to» = some h ∧ (log.map Injection.envelope).Sublist h.accepted

theorem Injections.kept (run : s.Injections «to» log t) (hUnremembered : Unremembered log) :
    (∀ injection ∈ log, injection.accepted = true) ∧ Kept «to» log t := by
  induction run with
  | start => exact ⟨by simp, .inl rfl⟩
  | other prior hUndrained hStep ih =>
      obtain ⟨hAccepted, hKept⟩ := ih hUnremembered
      refine ⟨hAccepted, hKept.imp_right ?_⟩
      rintro ⟨h, hTo, hSublist⟩
      obtain ⟨h', hTo', hGrows⟩ := step_accepted hUndrained hStep hTo
      exact ⟨h', hTo', hSublist.trans hGrows.sublist⟩
  | @inject log t h payload prior hTo hReady ih =>
      obtain ⟨hAccepted, hKept⟩ :=
        ih fun injection hMem => hUnremembered injection (List.mem_append_left _ hMem)
      have hNew : (injected «to» payload).key ∉ h.dedup.seen :=
        hUnremembered _ (List.mem_append_right log (List.mem_singleton_self _))
      obtain ⟨hTrue, h', hTo', hMore⟩ := @deliver_of_ready _ t (injected «to» payload) h hTo hReady hNew
      constructor
      · intro injection hMem
        rcases List.mem_append.mp hMem with hOld | hLast
        · exact hAccepted injection hOld
        · rw [List.mem_singleton.mp hLast]
          exact hTrue
      · refine .inr ⟨h', hTo', ?_⟩
        have hEarlier : (log.map Injection.envelope).Sublist h.accepted := by
          rcases hKept with rfl | ⟨earlier, hSame, hSublist⟩
          · exact List.nil_sublist _
          · obtain rfl := Option.some.inj (hSame.symm.trans hTo)
            exact hSublist
        rw [hMore, List.map_append]
        exact hEarlier.append (List.Sublist.refl _)

/-- What is kept by the receiver carries different keys. -/
theorem Injections.keys_nodup (hReach : s.Reachable capacity) (hFits : capacity < uint32Size)
    (run : s.Injections «to» log t) (hUnremembered : Unremembered log) :
    (log.map fun injection => injection.envelope.key).Nodup := by
  rcases (run.kept hUnremembered).2 with rfl | ⟨h, hTo, hSublist⟩
  · exact List.nodup_nil
  · have hOnce := (((run.reachable hReach).quiet hFits).handles _ h hTo).once
    have hKeys := (hSublist.map Envelope.key).nodup hOnce
    rwa [List.map_map] at hKeys

/-- So the sequences that work are those of a single call. -/
theorem Injections.length_le_one (hReach : s.Reachable capacity) (hFits : capacity < uint32Size)
    (run : s.Injections «to» log t) (hUnremembered : Unremembered log) : log.length ≤ 1 := by
  have hNodup := run.keys_nodup hReach hFits hUnremembered
  have hConst : (log.map fun injection => injection.envelope.key) =
      List.replicate log.length ⟨external.index, 0⟩ := by
    rw [List.map_congr_left run.same_key, List.map_const']
  rw [hConst] at hNodup
  exact List.nodup_replicate.mp hNodup

end ActorSystem

open ActorSystem

/-- A sequence of `inject` calls gets through exactly when no call meets a receiver that
remembers the external sender. -/
theorem injected_once_iff {capacity : Nat} {s t : ActorSystem σ} {«to» : ActorRef}
    {log : List (Injection σ)} (hReach : s.Reachable capacity) (run : s.Injections «to» log t) :
    (InjectedOnce «to» log t → Unremembered log) ∧
      (capacity < uint32Size → Unremembered log → InjectedOnce «to» log t) := by
  constructor
  · intro hOnce
    exact run.unremembered hOnce.accepted
  · intro hFits hUnremembered
    obtain ⟨hAccepted, hKept⟩ := run.kept hUnremembered
    refine ⟨hAccepted, ?_⟩
    intro u later runLater hLater hActive
    have hReach' : u.Reachable capacity := (run.reachable hReach).trans runLater.unrestricted
    obtain ⟨h', hTicked, hAll⟩ := tick_processed hReach' hFits hLater hActive
    have hSublist : (log.map Injection.envelope).Sublist later.accepted := by
      rcases hKept with rfl | ⟨h, hTo, hSublist⟩
      · exact List.nil_sublist _
      · have hGrows : Grows h later := runs_accepted runLater hTo hLater
        exact hSublist.trans hGrows.sublist
    have hNodup : later.accepted.Nodup := ((hReach'.quiet hFits).handles _ later hLater).once.of_map
    refine ⟨h', hTicked, by rw [hAll]; exact hSublist, ?_⟩
    intro injection hMem
    have hInjected := List.mem_map_of_mem (f := Injection.envelope) hMem
    rw [hAll, List.count_eq_one_of_mem hNodup (hSublist.subset hInjected),
      List.count_eq_one_of_mem (hSublist.nodup hNodup) hInjected]

/-- A fresh actor with room for two envelopes. -/
def freshHandle : ActorHandle Unit :=
  { impl := (), vt := Flood.sink, channel := ChannelBuf.make 2, self := ⟨0⟩, name := "sink" }

def freshSystem : ActorSystem Unit := { actors := [freshHandle], channelCapacity := 2 }

theorem freshSystem_reachable : freshSystem.Reachable 2 :=
  Transition.Runs.tail .refl (.spawn "sink" () Flood.sink) rfl

theorem first_injection : freshSystem.Injections ⟨0⟩
    [⟨freshHandle, injected ⟨0⟩ [1], true⟩] (freshSystem.inject ⟨0⟩ [1]).2 :=
  .inject [1] .start (h := freshHandle) rfl ⟨rfl, by decide⟩

theorem injected_once_first : InjectedOnce ⟨0⟩
    [⟨freshHandle, injected ⟨0⟩ [1], true⟩] (freshSystem.inject ⟨0⟩ [1]).2 := by
  refine (injected_once_iff freshSystem_reachable first_injection).2 (by decide) ?_
  intro injection hMem
  rw [List.mem_singleton.mp hMem]
  decide

/-- The second of two injections is refused, with room for both. -/
theorem second_injection_refused :
    ∃ log t, freshSystem.Reachable 2 ∧ freshSystem.Injections ⟨0⟩ log t ∧
      log.map Injection.accepted = [true, false] ∧ ¬InjectedOnce ⟨0⟩ log t := by
  have second := Injections.inject [2] first_injection
    (h := (freshHandle.accept (injected ⟨0⟩ [1])).2) rfl ⟨rfl, by decide⟩
  refine ⟨_, _, freshSystem_reachable, second, rfl, ?_⟩
  intro hOnce
  exact absurd (hOnce.accepted _ (List.mem_append_right _ (List.mem_singleton_self _))) (by decide)

end CelerMem.Necto
