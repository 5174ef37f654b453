import Wield.Adapters.MultipleInputQueueAdapter.TryPop

/-!
# Fairness of `try_pop`

Every message that has been pushed is returned, in the order of its queue.  A message waits for the
ones ahead of it and no longer than a turn over the queues for each of them.
-/

namespace Wield.MultipleInputQueueAdapter.TryPop

open Theory

variable {n : Nat} {Message : Type}

/-! ## What a call returns -/

/-- A call over `N` queues has returned the head of the first queue, in cyclic order from where it
    began, that was not empty when it was polled; or all queues were empty at its first poll. -/
structure Answers (N : Nat) (r : Returned Message) : Prop where
  atMost : r.call.polls.length ≤ N
  cyclic : ∀ k poll, r.call.polls[k]? = some poll → poll.which = (r.call.start + k) % N
  found : ∀ q m, r.call.message = some (q, m) → r.which = (q + 1) % N ∧
    ∃ before queues rest, r.call.polls = before ++ [{ which := q, queues := queues }] ∧
      (∀ poll ∈ before, poll.Empty) ∧ queues[q]? = some (m :: rest)
  missed : r.call.message = none → r.call.polls.length = N ∧
    (0 < N → ∃ first, r.call.polls.head? = some first ∧ first.queues = List.replicate N [])

theorem Returned.Ok.answers {N : Nat} {r : Returned Message} (h : r.Ok N) : Answers N r where
  atMost := h.call.atMost
  cyclic := h.call.cyclic
  found q m hmessage := by
    obtain ⟨before, queues, rest, hpolls, hempty, hqueue⟩ := h.call.found q m hmessage
    refine ⟨?_, before, queues, rest, hpolls, hempty, hqueue⟩
    have hlast : r.call.polls[before.length]? = some { which := q, queues := queues } := by
      rw [hpolls, List.getElem?_concat_length]
    have hq := h.call.cyclic before.length _ hlast
    dsimp only at hq
    rw [h.which, hpolls, List.length_append, List.length_singleton, hq, Nat.mod_add_mod,
      Nat.add_assoc]
  missed hnone := by
    have hall := h.all hnone
    refine ⟨hall, fun hN => ?_⟩
    have hne : r.call.polls ≠ [] := by
      rw [← hall] at hN
      exact List.ne_nil_of_length_pos hN
    have hfirst := List.head?_eq_some_head hne
    refine ⟨_, hfirst, List.eq_replicate_iff.mpr ⟨?_, fun queue hqueue => ?_⟩⟩
    · exact h.call.lengths _ (List.head_mem hne)
    · obtain ⟨q, hq, rfl⟩ := List.mem_iff_getElem.mp hqueue
      rw [h.call.lengths _ (List.head_mem hne)] at hq
      -- the poll of this queue in the same call has found it empty
      obtain ⟨k, hk, hkq⟩ := exists_add_mod_eq r.call.start hq
      have hk' : k < r.call.polls.length := hall ▸ hk
      have hempty := h.call.first hnone _ hfirst _ (List.getElem_mem hk')
      rw [h.call.cyclic k _ (List.getElem?_eq_getElem hk'), hkq] at hempty
      rwa [List.getD_eq_getElem?_getD, List.getElem?_eq_getElem, Option.getD_some] at hempty

/-! ## Runs -/

def Action.isRound : Action Message → Bool
  | .round => true
  | _ => false

/-- The number of calls that have begun. -/
def State.begun (σ : State n Message) : Nat :=
  σ.returned.length + σ.call.elim 0 fun _ => 1

/-- What has returned and what has been pushed stays so. -/
def Extends (σ σ' : State n Message) : Prop :=
  σ.returned <+: σ'.returned ∧ ∀ q, σ.pushed q <+: σ'.pushed q

theorem step_extends {σ σ' : State n Message} {a : Action Message} (hs : step σ a = some σ') :
    Extends σ σ' := by
  cases step_eq_some_iff.mp hs with
  | push q m hq =>
    refine ⟨List.prefix_rfl, fun p => ?_⟩
    show σ.pushed p <+: Function.update σ.pushed q (σ.pushed q ++ [m]) p
    by_cases hp : p = q
    · subst p
      rw [Function.update_self]
      exact List.prefix_append _ _
    · rw [Function.update_of_ne hp]
  | enter hout => exact ⟨List.prefix_rfl, fun _ => List.prefix_rfl⟩
  | poll call hcall hnone hmore => exact ⟨List.prefix_rfl, fun _ => List.prefix_rfl⟩
  | leave call hcall hdone => exact ⟨List.prefix_append _ _, fun _ => List.prefix_rfl⟩

theorem run_extends {σ σ' : State n Message} {as : List (Action Message)}
    (hrun : (system n Message).run σ as = some σ') : Extends σ σ' := by
  apply Lts.run_preserves (I := Extends σ) _ ⟨List.prefix_rfl, fun _ => List.prefix_rfl⟩ hrun
  intro τ a τ' h hs
  have hstep := step_extends hs
  exact ⟨h.1.trans hstep.1, fun q => (h.2 q).trans (hstep.2 q)⟩

theorem step_numberOfQueues {σ σ' : State n Message} {a : Action Message}
    (hs : step σ a = some σ') : σ'.adapter.numberOfQueues = σ.adapter.numberOfQueues := by
  cases step_eq_some_iff.mp hs with
  | poll call hcall hnone hmore => exact (poll_polls σ.adapter).numberOfQueues
  | _ => rfl

theorem run_numberOfQueues {σ σ' : State n Message} {as : List (Action Message)}
    (hrun : (system n Message).run σ as = some σ') :
    σ'.adapter.numberOfQueues = σ.adapter.numberOfQueues :=
  Lts.run_preserves
    (I := fun τ : State n Message => τ.adapter.numberOfQueues = σ.adapter.numberOfQueues)
    (fun _ _ _ h hs => (step_numberOfQueues hs).trans h) rfl hrun

/-! ### The end of a call -/

theorem run_call {σ σ' : State n Message} {as : List (Action Message)} {call : Call Message}
    (hrun : (system n Message).run σ as = some σ') (hcall : σ.call = some call) :
    σ.returned.length < σ'.returned.length ∨ ∃ call', σ'.call = some call' ∧
      call'.polls.length = call.polls.length + as.countP Action.isRound := by
  induction as generalizing σ call with
  | nil =>
    cases hrun
    exact .inr ⟨call, hcall, rfl⟩
  | cons a as ih =>
    simp only [Lts.run, Option.bind_eq_some_iff] at hrun
    obtain ⟨τ, hs, hrun⟩ := hrun
    cases step_eq_some_iff.mp hs with
    | push q m hq =>
      rw [List.countP_cons_of_neg Bool.false_ne_true]
      -- the induction hypothesis is for the state with the push, which has the same calls
      have hlater := ih hrun hcall
      exact hlater
    | enter hout =>
      rw [hcall] at hout
      cases hout
    | poll call' hcall' hnone hmore =>
      cases hcall.symm.trans hcall'
      rcases ih hrun rfl with hreturned | ⟨last, hlast, hlength⟩
      · exact .inl hreturned
      · refine .inr ⟨last, hlast, ?_⟩
        rw [hlength, Call.poll, List.length_append, List.length_singleton,
          List.countP_cons_of_pos rfl]
        omega
    | leave call' hcall' hdone =>
      -- the call has returned, and what has returned stays so
      have hle := (run_extends hrun).1.length_le
      rw [State.leave, List.length_append, List.length_singleton] at hle
      exact .inl hle

theorem Inv.terminates {σ σ' : State n Message} (h : Inv σ) {call : Call Message}
    (hcall : σ.call = some call) {as : List (Action Message)}
    (hrun : (system n Message).run σ as = some σ')
    (hrounds : σ.adapter.numberOfQueues < call.polls.length + as.countP Action.isRound) :
    σ.returned.length < σ'.returned.length := by
  rcases run_call hrun hcall with hreturned | ⟨call', hcall', hlength⟩
  · exact hreturned
  · have h' : Inv σ' := Lts.run_preserves inv_invariant.step h hrun
    have hmost := (h'.call call' hcall').ok.atMost
    rw [run_numberOfQueues hrun] at hmost
    omega

/-- A call that runs can go on. -/
theorem round_isSome {σ : State n Message} {call : Call Message} (hcall : σ.call = some call) :
    (step σ .round).isSome := by
  by_cases hdone : call.message = none → σ.adapter.allQueuesPolled call.queuesPolled
  · rw [step_eq_some_iff.mpr (.leave call hcall hdone)]
    rfl
  · obtain ⟨hnone, hmore⟩ := Classical.not_imp.mp hdone
    rw [step_eq_some_iff.mpr (.poll call hcall hnone hmore)]
    rfl

theorem round_removes {σ σ' : State n Message} (hs : step σ .round = some σ') :
    σ'.adapter.queues = σ.adapter.queues ∨
      ∃ call m rest, σ'.call = some call ∧ call.message = some (σ.adapter.which, m) ∧
        σ.adapter.queues[σ.adapter.which]? = some (m :: rest) ∧
        σ'.adapter.queues = σ.adapter.queues.set σ.adapter.which rest := by
  cases step_eq_some_iff.mp hs with
  | poll call hcall hnone hmore =>
    rcases poll_cases σ.adapter with ⟨_, hpoll⟩ | ⟨m, rest, hqueue, hpoll⟩
    · refine .inl ?_
      rw [State.poll, hpoll, updateNextQueue_queues]
    · refine .inr ⟨_, m, rest, rfl, ?_, hqueue, ?_⟩
      · rw [Call.poll, hpoll]
        rfl
      · rw [State.poll, hpoll, updateNextQueue_queues]
  | leave call hcall hdone => exact .inl rfl

/-! ### The wait for a message -/

/-- The number of polls before the queue at `q` is up, of `N` queues. -/
def ahead (N which q : Nat) : Nat :=
  if which ≤ q then q - which else q + N - which

/-- The number of polls until the message that was pushed to `q` as number `idx` is popped. -/
def State.pollsLeft (σ : State n Message) (q idx : Nat) : Nat :=
  if (σ.popped q).length ≤ idx then
    (idx - (σ.popped q).length) * σ.adapter.numberOfQueues +
      ahead σ.adapter.numberOfQueues σ.adapter.which q + 1
  else 0

/-- The calls that have begun to poll, and the polls until message `idx` of `q` is popped. -/
def State.callsLeft (σ : State n Message) (q idx : Nat) : Nat :=
  σ.pollsLeft q idx + σ.returned.length + σ.call.elim 0 fun call => min 1 call.polls.length

theorem ahead_lt {N which q : Nat} (hwhich : which < N) (hq : q < N) : ahead N which q < N := by
  unfold ahead
  split <;> omega

/-- After a poll of another queue, `q` is one nearer; after a poll of `q` it is a turn away. -/
theorem ahead_succ {N which q : Nat} (hwhich : which < N) (hq : q < N) :
    ahead N ((which + 1) % N) q + 1 = if which = q then N else ahead N which q := by
  unfold ahead
  rcases Nat.lt_or_ge (which + 1) N with hlt | hge
  · rw [Nat.mod_eq_of_lt hlt]
    split_ifs <;> omega
  · rw [show which + 1 = N by omega, Nat.mod_self]
    split_ifs <;> omega

theorem messageFrom_poll_of_ne {adapter : MultipleInputQueueAdapter n Message}
    (call : Call Message) {q : Nat} (hq : adapter.which ≠ q) :
    (call.poll adapter).messageFrom q = [] := by
  rcases poll_cases adapter with ⟨_, hpoll⟩ | ⟨m, rest, _, hpoll⟩
  · simp only [Call.poll, Call.messageFrom, hpoll, Option.map_none]
  · simp only [Call.poll, Call.messageFrom, hpoll, Option.map_some, if_neg hq]

theorem length_messageFrom_poll {adapter : MultipleInputQueueAdapter n Message}
    (call : Call Message) (h : adapter.queues.getD adapter.which [] ≠ []) :
    ((call.poll adapter).messageFrom adapter.which).length = 1 := by
  rcases poll_cases adapter with ⟨hempty, _⟩ | ⟨m, rest, _, hpoll⟩
  · exact absurd hempty h
  · simp only [Call.poll, Call.messageFrom, hpoll, Option.map_some, if_true,
      List.length_singleton]

/-- A poll brings the message one poll nearer. -/
theorem pollsLeft_poll {σ : State n Message} (h : Inv σ) {call : Call Message} {q idx : Nat}
    (hcall : σ.call = some call) (hnone : call.message = none)
    (hlt : σ.adapter.which < σ.adapter.numberOfQueues) (hq : q < σ.adapter.numberOfQueues)
    (hpushed : idx < (σ.pushed q).length) (hpopped : (σ.popped q).length ≤ idx) :
    (σ.poll call).pollsLeft q idx + 1 = σ.pollsLeft q idx := by
  have hcount : (σ.poll call).adapter.numberOfQueues = σ.adapter.numberOfQueues :=
    (poll_polls σ.adapter).numberOfQueues
  have hwhich : (σ.poll call).adapter.which =
      (σ.adapter.which + 1) % σ.adapter.numberOfQueues := poll_snd_which hlt
  have hahead := ahead_succ hlt hq
  rw [State.pollsLeft, State.pollsLeft, if_pos hpopped, popped_poll hcall hnone, hcount, hwhich]
  by_cases hturn : σ.adapter.which = q
  · subst q
    -- the queue holds the message, so that the poll pops one
    have hqueue : σ.adapter.queues.getD σ.adapter.which [] ≠ [] := by
      intro hempty
      rw [h.fifo, hempty, List.append_nil] at hpushed
      omega
    have hself : ahead σ.adapter.numberOfQueues σ.adapter.which σ.adapter.which = 0 := by
      rw [ahead, if_pos (Nat.le_refl _), Nat.sub_self]
    rw [if_pos rfl] at hahead
    rw [List.length_append, length_messageFrom_poll call hqueue, hself]
    split
    · rename_i hmore
      have hsub : idx - (σ.popped σ.adapter.which).length =
          idx - ((σ.popped σ.adapter.which).length + 1) + 1 := by omega
      rw [hsub, Nat.succ_mul]
      omega
    · rw [show idx - (σ.popped σ.adapter.which).length = 0 by omega, Nat.zero_mul]
  · rw [if_neg hturn] at hahead
    rw [messageFrom_poll_of_ne call hturn, List.append_nil, if_pos hpopped]
    omega

theorem returnedFrom_mono (q : Nat) {returned returned' : List (Returned Message)}
    (h : returned <+: returned') : returnedFrom q returned <+: returnedFrom q returned' := by
  obtain ⟨later, rfl⟩ := h
  rw [returnedFrom, returnedFrom, List.flatMap_append]
  exact List.prefix_append _ _

theorem Returned.Ok.polls_pos {N : Nat} {r : Returned Message} (h : r.Ok N) (hN : 0 < N) :
    0 < r.call.polls.length := by
  cases hmessage : r.call.message with
  | none => rwa [h.all hmessage]
  | some popped =>
    obtain ⟨before, queues, rest, hpolls, _⟩ := h.call.found _ _ hmessage
    rw [hpolls, List.length_append]
    exact Nat.succ_pos _

theorem callsLeft_step {σ σ' : State n Message} {a : Action Message} {q idx : Nat} (h : Inv σ)
    (hq : q < σ.adapter.numberOfQueues) (hpushed : idx < (σ.pushed q).length)
    (hs : step σ a = some σ') (hwait : (returnedFrom q σ'.returned).length ≤ idx) :
    σ'.callsLeft q idx ≤ σ.callsLeft q idx := by
  cases step_eq_some_iff.mp hs with
  | push p m hp => exact Nat.le_refl _
  | enter hout =>
    unfold State.callsLeft State.pollsLeft
    rw [popped_enter hout, hout]
    exact Nat.le_refl _
  | poll call hcall hnone hmore =>
    -- one poll less to go, and the call now counts as one that polls
    have hpopped : (σ.popped q).length ≤ idx := by
      rw [State.popped, hcall, Option.elim_some, Call.messageFrom_of_none hnone, List.append_nil]
      exact hwait
    have hlt := (h.call call hcall).which_lt (Nat.zero_lt_of_lt hq)
    have hleft := pollsLeft_poll h hcall hnone hlt hq hpushed hpopped
    have hcalled : (σ.poll call).call.elim 0 (fun call => min 1 call.polls.length) ≤ 1 :=
      Nat.min_le_left _ _
    have hreturned : (σ.poll call).returned.length = σ.returned.length := rfl
    unfold State.callsLeft
    omega
  | leave call hcall hdone =>
    -- the call that has returned has polled before
    have hpolls := ((h.call call hcall).leave hdone).polls_pos (Nat.zero_lt_of_lt hq)
    have hmin : min 1 call.polls.length = 1 := Nat.min_eq_left hpolls
    unfold State.callsLeft State.pollsLeft
    rw [popped_leave hcall, hcall, Option.elim_some, hmin, State.leave, Option.elim_none,
      List.length_append, List.length_singleton]
    exact Nat.le_refl _

theorem callsLeft_run {σ σ' : State n Message} {as : List (Action Message)} {q idx : Nat}
    (h : Inv σ) (hq : q < σ.adapter.numberOfQueues) (hpushed : idx < (σ.pushed q).length)
    (hrun : (system n Message).run σ as = some σ')
    (hwait : (returnedFrom q σ'.returned).length ≤ idx) :
    σ'.callsLeft q idx ≤ σ.callsLeft q idx := by
  induction as generalizing σ with
  | nil =>
    cases hrun
    exact Nat.le_refl _
  | cons a as ih =>
    simp only [Lts.run, Option.bind_eq_some_iff] at hrun
    obtain ⟨τ, hs, hrun⟩ := hrun
    have hq' : q < τ.adapter.numberOfQueues := (step_numberOfQueues hs).symm ▸ hq
    have hpushed' : idx < (τ.pushed q).length :=
      Nat.lt_of_lt_of_le hpushed ((step_extends hs).2 q).length_le
    have hwait' : (returnedFrom q τ.returned).length ≤ idx :=
      Nat.le_trans (returnedFrom_mono q (run_extends hrun).1).length_le hwait
    exact Nat.le_trans (ih (inv_invariant.step σ a τ h hs) hq' hpushed' hrun)
      (callsLeft_step h hq hpushed hs hwait')

/-- While the message has not been returned, there is a poll to go or the call that has it is still
    running. -/
theorem callsLeft_pos {σ : State n Message} (h : Inv σ) {q idx : Nat}
    (hwait : (returnedFrom q σ.returned).length ≤ idx) :
    σ.returned.length < σ.callsLeft q idx := by
  unfold State.callsLeft State.pollsLeft
  split
  · omega
  · rename_i hpopped
    cases hcall : σ.call with
    | none =>
      rw [State.popped, hcall, Option.elim_none, List.append_nil] at hpopped
      exact absurd hwait hpopped
    | some call =>
      cases hmessage : call.message with
      | none =>
        rw [State.popped, hcall, Option.elim_some, Call.messageFrom_of_none hmessage,
          List.append_nil] at hpopped
        exact absurd hwait hpopped
      | some popped =>
        obtain ⟨before, queues, rest, hpolls, _⟩ := (h.call call hcall).ok.found _ _ hmessage
        rw [Option.elim_some, hpolls, List.length_append, List.length_singleton]
        omega

/-- A message with `k` ahead of it is returned within `k + 1` turns of calls, each as long as there
    are queues. -/
theorem returned_of_begun {σ σ' : State n Message} {as : List (Action Message)} (h : Inv σ)
    {q k : Nat} {queue : List Message} {m : Message} (hqueue : σ.adapter.queues[q]? = some queue)
    (hm : queue[k]? = some m) (hrun : (system n Message).run σ as = some σ')
    (hcalls : σ.begun + (k + 1) * σ.adapter.numberOfQueues ≤ σ'.returned.length) :
    (returnedFrom q σ'.returned)[(σ.popped q).length + k]? = some m := by
  have hq : q < σ.adapter.numberOfQueues := by
    rw [← h.length]
    exact (List.getElem?_eq_some_iff.mp hqueue).1
  have hpushed : (σ.pushed q)[(σ.popped q).length + k]? = some m := by
    rw [h.fifo, List.getElem?_append_right (Nat.le_add_right _ _), Nat.add_sub_cancel_left,
      List.getD_eq_getElem?_getD, hqueue, Option.getD_some, hm]
  have hlt := (List.getElem?_eq_some_iff.mp hpushed).1
  have h' : Inv σ' := Lts.run_preserves inv_invariant.step h hrun
  by_cases hwait : (returnedFrom q σ'.returned).length ≤ (σ.popped q).length + k
  · -- too many calls have returned for the message to be still waiting
    have hrest := callsLeft_run h hq hlt hrun hwait
    have hpos := callsLeft_pos h' hwait
    have hahead := ahead_lt (h.which_lt (Nat.zero_lt_of_lt hq)) hq
    have hbegun : σ.returned.length + σ.call.elim 0 (fun call => min 1 call.polls.length) ≤
        σ.begun := by
      unfold State.begun
      cases σ.call with
      | none => exact Nat.le_refl _
      | some call => exact Nat.add_le_add_left (Nat.min_le_left _ _) _
    have hleft : σ.callsLeft q ((σ.popped q).length + k) ≤
        (k + 1) * σ.adapter.numberOfQueues + σ.begun := by
      unfold State.callsLeft State.pollsLeft
      rw [if_pos (Nat.le_add_right _ _), Nat.add_sub_cancel_left, Nat.succ_mul]
      omega
    omega
  · have hprefix := (run_extends hrun).2 q
    obtain ⟨later, hlater⟩ := hprefix
    have hlast : (σ'.pushed q)[(σ.popped q).length + k]? = some m := by
      rw [← hlater, List.getElem?_append_left hlt, hpushed]
    rw [h'.fifo, State.popped, List.append_assoc,
      List.getElem?_append_left (Nat.not_le.mp hwait)] at hlast
    exact hlast

/-! ### All histories -/

/-- What holds between any two steps of the consumer and the producers. -/
structure Fair (σ : State n Message) : Prop where
  which : 0 < σ.adapter.numberOfQueues → σ.adapter.which < σ.adapter.queues.length
  answers : ∀ r ∈ σ.returned, Answers σ.adapter.numberOfQueues r
  /-- A round takes nothing but the head of the queue at `which`. -/
  removes : ∀ σ', step σ .round = some σ' → σ'.adapter.queues = σ.adapter.queues ∨
    ∃ call m rest, σ'.call = some call ∧ call.message = some (σ.adapter.which, m) ∧
      σ.adapter.queues[σ.adapter.which]? = some (m :: rest) ∧
      σ'.adapter.queues = σ.adapter.queues.set σ.adapter.which rest
  /-- A call can always go on, and it has returned after a round more than there are queues. -/
  terminates : ∀ call, σ.call = some call → call.polls.length ≤ σ.adapter.numberOfQueues ∧
    (step σ .round).isSome ∧ ∀ as σ', (system n Message).run σ as = some σ' →
      σ.adapter.numberOfQueues < call.polls.length + as.countP Action.isRound →
        σ.returned.length < σ'.returned.length
  fifo : ∀ q, σ.pushed q = σ.popped q ++ σ.adapter.queues.getD q []
  /-- A message with `k` ahead of it waits for `(k + 1) * N` calls at most. -/
  waits : ∀ q queue k m, σ.adapter.queues[q]? = some queue → queue[k]? = some m → ∀ as σ',
    (system n Message).run σ as = some σ' →
      σ.begun + (k + 1) * σ.adapter.numberOfQueues ≤ σ'.returned.length →
        (returnedFrom q σ'.returned)[(σ.popped q).length + k]? = some m

/-- The adapter polls its queues fairly and misses nothing, whatever the producers push between its
    polls. -/
theorem tryPop_fair {σ : State n Message} (hσ : (system n Message).Reachable σ) : Fair σ := by
  have h := inv_invariant.holds hσ
  refine ⟨fun hN => ?_, fun r hr => (h.returned r hr).answers, fun σ' => round_removes,
    fun call hcall => ⟨(h.call call hcall).ok.atMost, round_isSome hcall,
      fun as σ' hrun => h.terminates hcall hrun⟩, h.fifo,
    fun q queue k m hqueue hm as σ' hrun => returned_of_begun h hqueue hm hrun⟩
  rw [h.length]
  exact h.which_lt hN

/-- Two queues.  A message is pushed to the first after it has been found empty, and the call goes
    on to the second. -/
theorem tryPop_fair_two :
    ∃ σ : State 2 Nat, (system 2 Nat).Reachable σ ∧ returnedFrom 1 σ.returned = [7] ∧
      σ.adapter.queues = [[9], []] ∧ Fair σ := by
  let inputs : Inputs 2 Nat := (((Inputs.start fun _ => false).addQueue 0).2.addQueue 1).2
  have hadded : Added 2 Nat inputs := .addQueue 1 (.addQueue 0 (.start _) rfl) rfl
  obtain ⟨σ, hσ, hreturned, hqueues⟩ := Lts.exists_reachable_of_run (system 2 Nat)
    (State.initial inputs.adapter)
    [.push 1 7, .tryPop, .round, .push 0 9, .round, .round]
    (fun σ => returnedFrom 1 σ.returned = [7] ∧ σ.adapter.queues = [[9], []])
    ⟨inputs, hadded, rfl⟩ (by decide)
  exact ⟨σ, hσ, hreturned, hqueues, tryPop_fair hσ⟩

end Wield.MultipleInputQueueAdapter.TryPop
