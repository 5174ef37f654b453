import Wield.SchedulerBase.KeptWork
import Wield.Schedulers.RandomVisit.Draws

/-!
# The stages that are tried, and what `RandomVisit` processes

A policy can only process the stages that it chooses.  `RoundRobin` and `SRPT` come round to all of
them.  Those of `RandomVisit` are the entries of the visit tables, which are never refilled, so that
the draws of the constructor decide for good what is processed.
-/

namespace Wield

open Theory Theory.Spawning StageChooser

variable {n T C : Nat} {Message : Type}

namespace RandomVisit

variable {size : Nat}

/-- Some thread has the stage in its table. -/
def Listed (tables : Tables n T size) (s : Fin n) : Prop :=
  ∃ t, some s ∈ tables.visitTable t

theorem Shuffled.listed_iff {tables tables' : Tables n T size} (h : Shuffled tables tables')
    (s : Fin n) : Listed tables' s ↔ Listed tables s :=
  exists_congr fun t => (h t).mem_iff

theorem mem_of_entry {table : VisitTable n size} {index : Nat} {s : Fin n}
    (h : entry table index = some s) : some s ∈ table := by
  unfold entry at h
  split at h
  · rename_i hlt
    rw [← h]
    exact Vector.getElem_mem hlt
  · cases h

/-- A thread chooses what its table lists. -/
theorem mem_of_randomStage {tables : Tables n T size} {t : Fin T} {randomDevice : Nat → Nat}
    {s : Fin n} (h : (randomStage tables t randomDevice).1 = some s) :
    some s ∈ tables.visitTable t := by
  have hself : Shuffled tables tables := fun _ => .rfl
  exact (hself.randomStage t randomDevice t).mem_iff.mp (mem_of_entry h)

end RandomVisit

namespace SchedulerBase

/-! ## The stages that are tried -/

section

variable {P : StageChooser n T} {concurrency : Fin n → SizeT} {A : Application n}
  {σ σ' : State (P.policy concurrency) A C} {a : Action (P.policy concurrency) A C}
  {valid : P.State → Prop} {allowed : Fin n → Prop}

/-- What a policy keeps of its own data, the scheduler keeps. -/
theorem Step.keeps (hs : Step σ a σ') (h : P.Keeps valid) (hown : valid σ.policy.own) :
    valid σ'.policy.own := by
  have inside : ∀ {t e p policy r}, Call.step σ.policy t e p = (policy, r) →
      valid policy.own := by
    intro t e p policy r hr
    have hcall := h.call hown t e p
    rwa [hr] at hcall
  cases hs with
  | call t e v p policy p' hpc hr => exact inside hr
  | visit t e v p policy s hpc hr => exact inside hr
  | account t e v s m target todo hpc => exact h.dispatched _ target hown
  | batchEnd t e v s info hpc => exact h.batchEnd _ info.hadMessage hown
  | clientDone c target hc => exact h.dispatched _ target hown
  | _ => exact hown

theorem keeps_invariant (h : P.Keeps valid) (hinit : ∀ own, P.init concurrency own → valid own) :
    (system (P.policy concurrency) A C).Invariant fun σ => valid σ.policy.own where
  init _ hσ := hinit _ hσ.policy.2.2
  step _ _ _ hown hs := (step_inv hs).keeps h hown

/-- The thread has chosen the stage, or is in a batch there. -/
def Pc.Concerns (s : Fin n) (pc : Pc (P.policy concurrency) A) : Prop :=
  pc.chosen = some s ∨ pc.Visits s

/-- Only allowed stages have been chosen and processed. -/
structure OnlyAllowed (valid : P.State → Prop) (allowed : Fin n → Prop)
    (σ : State (P.policy concurrency) A C) : Prop where
  own : valid σ.policy.own
  pc : ∀ t s, (σ.pc t).Concerns s → allowed s
  popped : ∀ s, σ.popped s ≠ [] → allowed s

theorem OnlyAllowed.initial (h : Initial σ) (hown : valid σ.policy.own) :
    OnlyAllowed valid allowed σ where
  own := hown
  pc t s hconcerns := by
    rw [h.pc t] at hconcerns
    rcases hconcerns with hchosen | hvisits
    · cases hchosen
    · exact hvisits.elim
  popped s hpopped := absurd (h.popped s) hpopped

theorem OnlyAllowed.step (h : OnlyAllowed valid allowed σ) (hkeeps : P.Keeps valid)
    (hchoose : ∀ own t c e s, valid own → (P.choose own t c e).1 = some s → allowed s)
    (hs : Step σ a σ') : OnlyAllowed valid allowed σ' := by
  have hown := hs.keeps hkeeps h.own
  have move : ∀ {t pc}, σ'.pc = Function.update σ.pc t pc → σ'.popped = σ.popped →
      (∀ s, pc.Concerns s → allowed s) → OnlyAllowed valid allowed σ' := by
    intro t pc hpc hpopped hconcerns
    refine ⟨hown, ?_, by rw [hpopped]; exact h.popped⟩
    exact forall_pc_of_update (Q := fun pc => ∀ s, pc.Concerns s → allowed s) hpc h.pc hconcerns
  have stay : ∀ {t u pc}, (σ.pc t).Visits u → σ'.pc = Function.update σ.pc t pc →
      σ'.popped = σ.popped → (∀ s, pc.Concerns s → u = s) → OnlyAllowed valid allowed σ' := by
    intro t u pc hvisits hpc hpopped hsame
    exact move hpc hpopped fun s hs => hsame s hs ▸ h.pc t u (.inr hvisits)
  cases hs with
  | call t e v p policy p' hpc hr =>
    refine move rfl rfl fun s hconcerns => ?_
    obtain hchosen : Call.chosen p' = some s := hconcerns.resolve_right id
    by_cases hp : ∃ c, p = .choose c
    · obtain ⟨c, rfl⟩ := hp
      cases hr
      exact hchoose _ t c e s h.own hchosen
    · rcases Call.chosen_cases (not_exists.mp hp) hr with ⟨_, hsame⟩ | ⟨_, hnone⟩
      · refine h.pc t s (.inl ?_)
        rw [hpc]
        exact hsame.symm.trans hchosen
      · cases hnone.symm.trans hchosen
  | visit t e v p policy u hpc hr =>
    obtain ⟨rfl, _⟩ := Call.step_eq_inr hr
    refine move rfl rfl fun s hconcerns => ?_
    obtain rfl : u = s := hconcerns.resolve_left fun hchosen => by cases hchosen
    exact h.pc t u (.inl (by rw [hpc]; rfl))
  | pop t e v u m rest hpc hq =>
    have hallowed : allowed u := h.pc t u (.inr (by rw [hpc]; rfl))
    refine ⟨hown, ?_, fun s hpopped => ?_⟩
    · refine forall_pc_of_update (Q := fun pc => ∀ s, pc.Concerns s → allowed s) rfl h.pc ?_
      rintro s (hchosen | rfl)
      · cases hchosen
      · exact hallowed
    · by_cases hsu : s = u
      · rwa [hsu]
      · rw [State.setPc_popped, State.pop_popped, Function.update_of_ne hsu] at hpopped
        exact h.popped s hpopped
  | empty t e v u hpc hq | push t e v u m target m' todo hpc
  | account t e v u m target todo hpc | returns t e v u m hpc =>
    refine stay (u := u) (by rw [hpc]; rfl) rfl rfl fun s hconcerns => ?_
    exact hconcerns.resolve_left fun hchosen => by cases hchosen
  | leave t e v hpc hd | enter t e v hpc hd | batchEnd t e v u info hpc
  | throw t u m todo hA hpc =>
    refine move rfl rfl fun s hconcerns => ?_
    rcases hconcerns with hchosen | hvisits
    · cases hchosen
    · exact hvisits.elim
  | clientPush c target m hc he | clientDone c target hc | stop => exact ⟨hown, h.pc, h.popped⟩

end

/-! ## `RandomVisit` -/

section

variable {TableSizeFactor : Nat} {concurrency : Fin n → SizeT} {A : Application n}
  {σ σ' : State ((RandomVisit.chooser n T TableSizeFactor).policy concurrency) A C}
  {a : Action ((RandomVisit.chooser n T TableSizeFactor).policy concurrency) A C} {t : Fin T}
  {s : Fin n}

/-- The position of a thread in its visit table changes with its own choices only. -/
theorem Step.visitTable_eq (hs : Step σ a σ')
    (h : ∀ e v c, a = .thread t e v → σ.pc t ≠ .nextStage (.choose c)) :
    σ'.policy.own.visitTable t = σ.policy.own.visitTable t ∧
      σ'.policy.own.visitIndex t = σ.policy.own.visitIndex t := by
  have inside : ∀ {u e v p policy r}, a = .thread u e v → σ.pc u = .nextStage p →
      Call.step σ.policy u e p = (policy, r) →
      policy.own.visitTable t = σ.policy.own.visitTable t ∧
        policy.own.visitIndex t = σ.policy.own.visitIndex t := by
    intro u e v p policy r ha hpc hr
    rcases Call.own_cases hr with hown | ⟨c, rfl, hown⟩ | ⟨_, hown⟩
    · exact ⟨by rw [hown], by rw [hown]⟩
    · have hut : t ≠ u := by
        rintro rfl
        exact h e v c ha hpc
      rw [hown]
      exact RandomVisit.randomStage_of_ne σ.policy.own hut e
    · exact ⟨by rw [hown], by rw [hown]⟩
  cases hs with
  | call u e v p policy p' hpc hr => exact inside rfl hpc hr
  | visit u e v p policy s' hpc hr => exact inside rfl hpc hr
  | _ => exact ⟨rfl, rfl⟩

/-- The tables are those of the construction, shuffled, and only what they list is processed. -/
abbrev OnlyListed (tables : (RandomVisit.chooser n T TableSizeFactor).State)
    (σ : State ((RandomVisit.chooser n T TableSizeFactor).policy concurrency) A C) : Prop :=
  OnlyAllowed (P := RandomVisit.chooser n T TableSizeFactor) (RandomVisit.Shuffled tables)
    (RandomVisit.Listed tables) σ

theorem OnlyListed.step {tables : (RandomVisit.chooser n T TableSizeFactor).State}
    (h : OnlyListed tables σ) (hs : Step σ a σ') : OnlyListed tables σ' := by
  refine OnlyAllowed.step h (RandomVisit.keeps_shuffled tables) ?_ hs
  intro own t c e s hshuffled hchoice
  exact (RandomVisit.Shuffled.listed_iff hshuffled s).mp ⟨t, RandomVisit.mem_of_randomStage hchoice⟩

end

section

variable {TableSizeFactor : Nat} {concurrency : Fin n → SizeT} {G : StageGraph n Message}
  {entry : Fin n → Bool}
  {ρ : (shared ((RandomVisit.chooser n T TableSizeFactor).policy concurrency) G entry C).Execution}

theorem shared_visitTable {i : Nat} {t : Fin T} (hnot : ∀ stage, ¬ Chooses ρ t stage i) :
    (ρ.state (i + 1)).policy.own.visitTable t = (ρ.state i).policy.own.visitTable t ∧
      (ρ.state (i + 1)).policy.own.visitIndex t = (ρ.state i).policy.own.visitIndex t := by
  rcases shared_step ρ i with ⟨a, hact, _, hs⟩ | ⟨_, hobserves⟩
  · refine hs.visitTable_eq fun e v c ha hpc => hnot _ ⟨e, v, c, ?_, hpc, rfl⟩
    rw [hact, ha]
  · have hown : (ρ.state (i + 1)).policy.own = (ρ.state i).policy.own :=
      hobserves.own (V := (· = (ρ.state i).policy.own)) (fun _ _ => id) rfl
    rw [hown]
    exact ⟨rfl, rfl⟩

/-- The tables keep their entries. -/
theorem shared_shuffled
    (ρ : (shared ((RandomVisit.chooser n T TableSizeFactor).policy concurrency) G entry
      C).Execution)
    (i : Nat) : RandomVisit.Shuffled (ρ.state 0).policy.own (ρ.state i).policy.own := by
  induction i with
  | zero => exact fun _ => .rfl
  | succ i ih =>
    rcases shared_step ρ i with ⟨a, _, _, hs⟩ | ⟨_, hobserves⟩
    · exact hs.keeps (RandomVisit.keeps_shuffled _) ih
    · exact hobserves.own (fun _ _ => id) ih

theorem Scheduled.valid (hρ : Scheduled ρ) (hsize : 0 < n * TableSizeFactor) (i : Nat) :
    (ρ.state i).policy.own.Valid concurrency := by
  refine hρ.holds (keeps_invariant (RandomVisit.keeps_valid hsize) ?_)
    (fun σ σ' hvalid hobserves => hobserves.own (fun _ _ => id) hvalid) i
  rintro own ⟨draws, hdraws⟩
  exact RandomVisit.initVisitTable_valid hdraws

/-- A thread chooses each stage of its table again and again. -/
theorem Settled.randomVisit_chooses {N : Nat} (h : Settled ρ N) (hρ : Scheduled ρ) {t : Fin T}
    {s : Fin n} (hmem : some s ∈ (ρ.state 0).policy.own.visitTable t) :
    ∃ᶠ i in Filter.atTop, Chooses ρ t (some s) i := by
  have hsize : 0 < n * TableSizeFactor := by
    obtain ⟨j, hj, _⟩ := Vector.mem_iff_getElem.mp hmem
    exact Nat.zero_lt_of_lt hj
  refine h.frequently_chooses hρ t (fun i => RandomVisit.remaining
    ((ρ.state i).policy.own.visitTable t) ((ρ.state i).policy.own.visitIndex t) s)
    (fun i _ hnot => ?_) fun i stage _ hchooses hne => ?_
  · obtain ⟨htable, hindex⟩ := shared_visitTable hnot
    rw [htable, hindex]
  · obtain ⟨e, v, c, hact, hpc, rfl⟩ := hchooses
    have hs : some s ∈ (ρ.state i).policy.own.visitTable t :=
      (shared_shuffled ρ i t).mem_iff.mpr hmem
    rw [((shared_own hact).2.choice hpc).1]
    exact (RandomVisit.remaining_randomStage hs ((hρ.valid hsize i).inside t) e).resolve_left hne

/-- And it chooses no others. -/
theorem Chooses.mem_visitTable {i : Nat} {t : Fin T} {s : Fin n} (h : Chooses ρ t (some s) i) :
    some s ∈ (ρ.state 0).policy.own.visitTable t := by
  obtain ⟨e, v, c, _, _, hchoice⟩ := h
  exact (shared_shuffled ρ i t).mem_iff.mp (RandomVisit.mem_of_randomStage hchoice)

/-- Once nothing is dispatched from outside any more, and before `stop()`, the stages that a thread
    tries again and again in `nextStage`, in every execution that is fair to the threads, are those
    of `stages`, given the data of the policy at the start. -/
def ComesRound (P : StageChooser n T) (concurrency : Fin n → SizeT) (G : StageGraph n Message)
    (entry : Fin n → Bool) (C : Nat) (stages : P.State → Fin T → Fin n → Prop) : Prop :=
  ∀ ρ : (undisturbed (P.policy concurrency) G false entry C).Execution,
    (system _ _ C).Reachable (ρ.state 0) → (ρ.state 0).done = false → ρ.Fair Action.actor →
      ∀ t s, (∃ᶠ i in Filter.atTop, Chooses (alone ρ) t (some s) i) ↔
        stages (ρ.state 0).policy.own t s

theorem walking_comesRound (hn : n < 2 ^ 64) {p : AssignmentPolicy}
    (hp : p = .roundRobin ∨ p = .srpt) (concurrency : Fin n → SizeT) (G : StageGraph n Message)
    (entry : Fin n → Bool) :
    ComesRound (p.chooser n T) concurrency G entry C fun _ _ _ => True := by
  intro ρ hreachable hrunning hfair t s
  obtain ⟨N, hN⟩ := exists_settled ρ
  exact iff_true_intro (hN.walking_chooses hn hp ⟨hreachable.among, hrunning, hfair⟩ t s)

/-- No thread passes a stage over for ever: under `RoundRobin` and `SRPT` every thread tries every
    stage again and again, also those that the mask closes or that others fill, and under
    `RandomVisit` it tries those of its visit table, whatever the table is shuffled with. -/
theorem stages_comeRound (hn : n < 2 ^ 64) (G : StageGraph n Message) (entry : Fin n → Bool)
    (concurrency : Fin n → SizeT) (TableSizeFactor : Nat) :
    ComesRound (RoundRobin.chooser n T) concurrency G entry C (fun _ _ _ => True) ∧
      ComesRound (SRPT.chooser n T) concurrency G entry C (fun _ _ _ => True) ∧
      ComesRound (RandomVisit.chooser n T TableSizeFactor) concurrency G entry C
        fun tables t s => some s ∈ tables.visitTable t := by
  refine ⟨walking_comesRound hn (.inl rfl) concurrency G entry,
    walking_comesRound hn (.inr rfl) concurrency G entry, fun ρ hreachable hrunning hfair t s => ?_⟩
  have hρ : Scheduled (alone ρ) := ⟨hreachable.among, hrunning, hfair⟩
  obtain ⟨N, hN⟩ := exists_settled ρ
  refine ⟨fun hchooses => ?_, fun hmem => hN.randomVisit_chooses hρ hmem⟩
  obtain ⟨i, hi⟩ := hchooses.exists
  exact hi.mem_visitTable

/-- Three threads at two stages that take one each, with a message to be processed. -/
theorem stages_comeRound_three :
    ∃ ρ : (undisturbed ((RoundRobin.chooser 2 3).policy fun _ => 1) forwarding false
        (fun _ => true) 1).Execution, ρ.Fair Action.actor ∧ (ρ.state 0).queue 0 = [7] ∧
      ∀ t s, ∃ᶠ i in Filter.atTop, Chooses (alone ρ) t (some s) i := by
  let as : List (Action ((RoundRobin.chooser 2 3).policy fun _ => 1)
    (forwarding.application false fun _ => true) 1) := [.push 0 0 (7 : Nat), .dispatched 0]
  let σ₀ : State ((RoundRobin.chooser 2 3).policy fun _ => 1)
    (forwarding.application false fun _ => true) 1 := State.fresh (.fresh (fun _ => 1) ())
  have hσ₀ : Initial σ₀ := State.fresh_initial ⟨rfl, fun _ => rfl, trivial⟩
  obtain ⟨σ, hrun, hdone, hpc, hq⟩ : ∃ σ, (system _ _ 1).run σ₀ as = some σ ∧ σ.done = false ∧
      (∀ t, (σ.pc t).isExited = false) ∧ σ.queue 0 = [7] := ⟨_, rfl, rfl, fun _ => rfl, rfl⟩
  obtain ⟨ρ, hstart, hfair⟩ := exists_fair (by decide) () ⟨hdone, hpc⟩
  subst hstart
  refine ⟨ρ, hfair, hq, fun t s => ?_⟩
  exact ((stages_comeRound (by decide) forwarding (fun _ => true) (fun _ => 1) 1).1 ρ
    ((Lts.Reachable.init hσ₀).run hrun) hdone hfair t s).mpr trivial

/-- Under `RandomVisit` everything is processed exactly if every stage that gets a message is open
    and was drawn when the visit tables were constructed, whatever is drawn afterwards. -/
theorem randomVisit_drained_iff (G : StageGraph n Message) (entry : Fin n → Bool)
    (concurrency : Fin n → SizeT)
    {σ₀ : State ((RandomVisit.chooser n T TableSizeFactor).policy concurrency)
      (G.application false entry) C} (hσ₀ : Initial σ₀) {draws : List (Fin n)}
    (hdraws : RandomVisit.Constructed concurrency draws σ₀.policy.own) (as)
    (ρ : (undisturbed _ G false entry C).Execution)
    (hrun : (system _ _ C).run σ₀ as = some (ρ.state 0)) (hrunning : (ρ.state 0).done = false)
    (hfair : ρ.Fair Action.actor) :
    Drained as ρ ↔
      ∀ d ∈ G.deliveries (clientDispatches as), d.1 ∈ draws ∧ concurrency d.1 ≠ 0 := by
  have hρ : Scheduled (alone ρ) := scheduled_alone hσ₀ hrun hrunning hfair
  have hallowed : ∀ i, OnlyListed σ₀.policy.own (ρ.state i) :=
    ρ.always (fun σ a σ' h hs => h.step (step_inv (Lts.restrict_step_eq_some.mp hs).2))
      (Lts.run_preserves (fun σ a σ' h hs => h.step (step_inv hs))
        (OnlyAllowed.initial hσ₀ fun _ => .rfl) hrun)
  have hlisted : ∀ s, RandomVisit.Listed σ₀.policy.own s ↔ s ∈ draws ∧ concurrency s ≠ 0 :=
    hdraws.mem_iff
  constructor
  · intro hdrained d hd
    obtain ⟨i, hpopped⟩ := hdrained.popped_ne_nil hd
    exact (hlisted d.1).mp ((hallowed i).popped d.1 hpopped)
  · intro h
    refine hρ.drained hσ₀ hrun fun d hd => ?_
    obtain ⟨t, ht⟩ := (hlisted d.1).mpr (h d hd)
    refine leavesNothing_of_chooses hρ (h d hd).2 t fun N hN => hN.randomVisit_chooses hρ ?_
    exact ((hallowed 0).own t).mem_iff.mpr ht

/-- One thread with both of two stages in its table, for a message that goes through them. -/
theorem randomVisit_drained_iff_two :
    ∃ ρ : (undisturbed ((RandomVisit.chooser 2 1 1).policy fun _ => 1) forwarding false
        (fun _ => true) 1).Execution, ρ.Fair Action.actor ∧
      Drained [.push 0 0 (7 : Nat), .dispatched 0] ρ := by
  have hdraws := RandomVisit.oneTable_constructed
  let σ₀ : State ((RandomVisit.chooser 2 1 1).policy fun _ => 1)
    (forwarding.application false fun _ => true) 1 :=
      State.fresh (.fresh (fun _ => 1) (RandomVisit.oneTable #v[some 1, some 0]))
  have hσ₀ : Initial σ₀ := State.fresh_initial ⟨rfl, fun _ => rfl, [1, 0], hdraws.finishes⟩
  obtain ⟨σ, hrun, hdone, hpc⟩ : ∃ σ,
      (system _ _ 1).run σ₀ [.push 0 0 (7 : Nat), .dispatched 0] = some σ ∧ σ.done = false ∧
        ∀ t, (σ.pc t).isExited = false := ⟨_, rfl, rfl, fun _ => rfl⟩
  obtain ⟨ρ, hstart, hfair⟩ := exists_fair (by decide) (fun _ => 0) ⟨hdone, hpc⟩
  subst hstart
  refine ⟨ρ, hfair, (randomVisit_drained_iff forwarding (fun _ => true) (fun _ => 1) hσ₀ hdraws _ ρ
    hrun hdone hfair).mpr fun d _ => ⟨?_, by decide⟩⟩
  have hall : ∀ s : Fin 2, s ∈ ([1, 0] : List (Fin 2)) := by decide
  exact hall d.1

end

end SchedulerBase

end Wield
