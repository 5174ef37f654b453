import Wield.SchedulerBase.Steps

/-!
# Work that nobody is due to do

`Color` and `ColorMinus` send threads only to stages that are advertised: by a name in the work
queue, or by a positive depth estimate.  A stage with messages is looked after if it is advertised,
or if some agent (a thread or a client) will advertise it or poll it.  `noWorkLost_step` names the
steps that can leave a stage with messages and nobody to look after it.
-/

namespace Wield.SchedulerBase

open Theory StageChooser

variable {n T C : Nat} {P : StageChooser n T} {concurrency : Fin n → SizeT} {A : Application n}

/-- The thread has taken `s` from the policy, and `tryAssign` has not refused it. -/
@[simp] def Pc.Picked (s : Fin n) : Pc (P.policy concurrency) A → Prop
  | .nextStage (.load next _) => next = some s
  | .nextStage (.exchange next _ _) | .nextStage (.record next) | .nextStage (.assigned next) =>
    next = s
  | _ => False

/-- The thread visits `s` and has not had the empty poll that ends its batch. -/
@[simp] def Pc.Polling (s : Fin n) : Pc (P.policy concurrency) A → Prop
  | .poll s' | .running s' _ _ | .pushed s' _ _ _ => s' = s
  | _ => False

/-- The thread is in a dispatch to `s`, after the push. -/
@[simp] def Pc.Dispatching (s : Fin n) : Pc (P.policy concurrency) A → Prop
  | .pushed _ _ target _ => target = s
  | _ => False

/-- Some dispatch to `s` is between its push and what the dispatcher does after it. -/
def DispatchPending (σ : State (P.policy concurrency) A C) (s : Fin n) : Prop :=
  (∃ c, σ.client c = some s) ∨ ∃ t, (σ.pc t).Dispatching s

/-- No message waits at a stage that nobody is due to visit. -/
def NoWorkLost (advertised : P.State → Fin n → Prop) (σ : State (P.policy concurrency) A C) :
    Prop :=
  ∀ s, concurrency s ≠ 0 → σ.queue s ≠ [] → ¬ DispatchPending σ s →
    advertised σ.policy.own s ∨ (∃ t, (σ.pc t).Picked s) ∨ ∃ t, (σ.pc t).Polling s

section Decidable

instance (s : Fin n) : (pc : Pc (P.policy concurrency) A) → Decidable (pc.Picked s)
  | .nextStage (.load next _) => inferInstanceAs (Decidable (next = some s))
  | .nextStage (.exchange next _ _) | .nextStage (.record next) | .nextStage (.assigned next) =>
    inferInstanceAs (Decidable (next = s))
  | .nextStage .enter | .nextStage (.decrement _) | .nextStage (.clear _)
  | .nextStage (.start _) | .nextStage (.choose _) | .nextStage (.refused _ _)
  | .loop | .poll _ | .running _ _ _ | .pushed _ _ _ _ | .batchEnd _ _ | .exited => isFalse id

instance (s : Fin n) : (pc : Pc (P.policy concurrency) A) → Decidable (pc.Polling s)
  | .poll s' | .running s' _ _ | .pushed s' _ _ _ => inferInstanceAs (Decidable (s' = s))
  | .nextStage _ | .loop | .batchEnd _ _ | .exited => isFalse id

instance (s : Fin n) : (pc : Pc (P.policy concurrency) A) → Decidable (pc.Dispatching s)
  | .pushed _ _ target _ => inferInstanceAs (Decidable (target = s))
  | .nextStage _ | .loop | .poll _ | .running _ _ _ | .batchEnd _ _ | .exited => isFalse id

instance (σ : State (P.policy concurrency) A C) (s : Fin n) : Decidable (DispatchPending σ s) :=
  inferInstanceAs (Decidable (_ ∨ _))

instance (advertised : P.State → Fin n → Prop) [∀ own s, Decidable (advertised own s)]
    (σ : State (P.policy concurrency) A C) : Decidable (NoWorkLost advertised σ) :=
  inferInstanceAs (Decidable (∀ _ : Fin n, _ → _ → _ → _))

end Decidable

/-- The threads and the clients. -/
abbrev Agent (T C : Nat) := Fin T ⊕ Fin C

/-- The agent will advertise `s`, or it will poll `s`, or its assignment to `s` will fail. -/
def Serves (σ : State (P.policy concurrency) A C) (s : Fin n) : Agent T C → Prop
  | .inl t => (σ.pc t).Picked s ∨ (σ.pc t).Polling s ∨ (σ.pc t).Dispatching s
  | .inr c => σ.client c = some s

def ServedByOthers (σ : State (P.policy concurrency) A C) (a : Agent T C) (s : Fin n) : Prop :=
  ∃ b, b ≠ a ∧ Serves σ s b

/-- If `a` is about to stop serving `s` and to leave the policy's data as `own`, then nobody looks
    after the messages of `s` any more. -/
structure Strands (advertised : P.State → Fin n → Prop) (σ : State (P.policy concurrency) A C)
    (a : Agent T C) (s : Fin n) (own : P.State) : Prop where
  limit : concurrency s ≠ 0
  waiting : σ.queue s ≠ []
  silent : ¬ advertised own s
  alone : ¬ ServedByOthers σ a s

theorem noWorkLost_iff {advertised : P.State → Fin n → Prop}
    {σ : State (P.policy concurrency) A C} :
    NoWorkLost advertised σ ↔ ∀ s, concurrency s ≠ 0 → σ.queue s ≠ [] →
      advertised σ.policy.own s ∨ ∃ a, Serves σ s a := by
  refine forall_congr' fun s => imp_congr_right fun _ => imp_congr_right fun _ => ?_
  simp only [DispatchPending, Serves, Sum.exists, exists_or]
  tauto

section Frame

variable {advertised : P.State → Fin n → Prop} {σ σ' : State (P.policy concurrency) A C}

/-- Only `a` has moved. -/
def OnlyMoves (σ σ' : State (P.policy concurrency) A C) (a : Agent T C) : Prop :=
  ∀ b, b ≠ a → ∀ s, Serves σ' s b ↔ Serves σ s b

theorem onlyMoves_thread {t : Fin T} {pc : Pc (P.policy concurrency) A}
    (hpc : σ'.pc = Function.update σ.pc t pc) (hclient : σ'.client = σ.client) :
    OnlyMoves σ σ' (.inl t) := by
  intro b hb s
  cases b with
  | inl u =>
    have hu : u ≠ t := fun h => hb (congrArg _ h)
    simp only [Serves, hpc, Function.update_of_ne hu]
  | inr c => simp only [Serves, hclient]

theorem onlyMoves_client {c : Fin C} {o : Option (Fin n)} (hpc : σ'.pc = σ.pc)
    (hclient : σ'.client = Function.update σ.client c o) : OnlyMoves σ σ' (.inr c) := by
  intro b hb s
  cases b with
  | inl u => simp only [Serves, hpc]
  | inr d =>
    have hd : d ≠ c := fun h => hb (congrArg _ h)
    simp only [Serves, hclient, Function.update_of_ne hd]

theorem OnlyMoves.exists_serves {a : Agent T C} (h : OnlyMoves σ σ' a) (s : Fin n) :
    (∃ b, Serves σ' s b) ↔ Serves σ' s a ∨ ServedByOthers σ a s := by
  constructor
  · rintro ⟨b, hb⟩
    by_cases hba : b = a
    · exact .inl (hba ▸ hb)
    · exact .inr ⟨b, hba, (h b hba s).mp hb⟩
  · rintro (ha | ⟨b, hba, hb⟩)
    · exact ⟨a, ha⟩
    · exact ⟨b, (h b hba s).mpr hb⟩

theorem exists_serves_iff (a : Agent T C) (s : Fin n) :
    (∃ b, Serves σ s b) ↔ Serves σ s a ∨ ServedByOthers σ a s :=
  OnlyMoves.exists_serves (fun _ _ _ => Iff.rfl) s

/-- A step after which every stage that the agent served or that was advertised still is. -/
theorem NoWorkLost.keep (h : NoWorkLost advertised σ) {a : Agent T C} (hmove : OnlyMoves σ σ' a)
    (hqueue : ∀ s, σ'.queue s ≠ [] → σ.queue s ≠ [] ∨ Serves σ' s a)
    (hserves : ∀ s, σ'.queue s ≠ [] → advertised σ.policy.own s ∨ Serves σ s a →
      advertised σ'.policy.own s ∨ Serves σ' s a) : NoWorkLost advertised σ' := by
  rw [noWorkLost_iff] at h ⊢
  intro s hopen hne
  rw [hmove.exists_serves]
  rcases hqueue s hne with hold | hnew
  · rcases h s hopen hold with hadv | hserved
    · exact (hserves s hne (.inl hadv)).imp_right .inl
    · rcases (exists_serves_iff a s).mp hserved with ha | hothers
      · exact (hserves s hne (.inr ha)).imp_right .inl
      · exact .inr (.inr hothers)
  · exact .inr (.inl hnew)

/-- A step in which the agent stops serving one stage. -/
theorem NoWorkLost.drop (h : NoWorkLost advertised σ) {a : Agent T C} (hmove : OnlyMoves σ σ' a)
    (hqueue : σ'.queue = σ.queue) (s : Fin n) (hgone : ¬ Serves σ' s a)
    (hserves : ∀ s', s' ≠ s → advertised σ.policy.own s' ∨ Serves σ s' a →
      advertised σ'.policy.own s' ∨ Serves σ' s' a) :
    NoWorkLost advertised σ' ↔ ¬ Strands advertised σ a s σ'.policy.own := by
  constructor
  · intro h' hstrands
    rw [noWorkLost_iff] at h'
    -- after the step `s` is neither advertised nor served by anyone
    rcases h' s hstrands.limit (by rw [hqueue]; exact hstrands.waiting) with hadv | hserved
    · exact hstrands.silent hadv
    · exact ((hmove.exists_serves s).mp hserved).elim hgone hstrands.alone
  · intro hnot
    rw [noWorkLost_iff] at h ⊢
    intro s' hopen hne
    rw [hqueue] at hne
    rw [hmove.exists_serves]
    -- for the stage that is dropped the condition is exactly `Strands`
    by_cases hs : s' = s
    · subst s'
      by_contra hcon
      rw [not_or, not_or] at hcon
      exact hnot ⟨hopen, hne, hcon.1, hcon.2.2⟩
    · rcases h s' hopen hne with hadv | hserved
      · exact (hserves s' hs (.inl hadv)).imp_right .inl
      · rcases (exists_serves_iff a s').mp hserved with ha | hothers
        · exact (hserves s' hs (.inr ha)).imp_right .inl
        · exact .inr (.inr hothers)

end Frame

/-- How the policy's own data may change what is advertised: a choice takes only the chosen stage
    off, settling and dispatching concern one stage. -/
structure Advertises (advertised : P.State → Fin n → Prop) : Prop where
  choose : ∀ own t c e s, advertised own s →
    (P.choose own t c e).1 = some s ∨ advertised (P.choose own t c e).2.2 s
  settle : ∀ own next s, next ≠ some s → advertised own s → advertised (P.settle own next) s
  batchEnd : ∀ own b s, advertised own s → advertised (P.batchEnd own b) s
  dispatched : ∀ own target s, s ≠ target → advertised own s →
    advertised (P.dispatched own target) s

/-- The next step of `t` makes `tryAssign(t, s)` return `false`. -/
def Refuses (σ : State (P.policy concurrency) A C) (t : Fin T) (s : Fin n) : Prop :=
  match σ.pc t with
  | .nextStage (.load next _) => next = some s ∧ ¬ σ.policy.ta.HasRoom s
  | .nextStage (.exchange next seen _) => next = s ∧ σ.policy.ta.threadsPerStage s ≠ seen
  | _ => False

/-- The steps that strand a stage: a refusal of the last pick, the settling of a refused pick, a
    dispatch that ends without advertising its target, and an exception in the last visitor. -/
def LosesWork (advertised : P.State → Fin n → Prop) (σ : State (P.policy concurrency) A C) :
    Action (P.policy concurrency) A C → Prop
  | .thread t _ _ =>
    (∃ s, Refuses σ t s ∧ Strands advertised σ (.inl t) s σ.policy.own) ∨
    (∃ s c, σ.pc t = .nextStage (.refused (some s) c) ∧
      Strands advertised σ (.inl t) s (P.settle σ.policy.own (some s))) ∨
    (∃ r m s todo, σ.pc t = .pushed r m s todo ∧ r ≠ s ∧
      Strands advertised σ (.inl t) s (P.dispatched σ.policy.own s))
  | .throw t =>
    ∃ s m todo, σ.pc t = .running s m todo ∧ Strands advertised σ (.inl t) s σ.policy.own
  | .dispatched c =>
    ∃ s, σ.client c = some s ∧ Strands advertised σ (.inr c) s (P.dispatched σ.policy.own s)
  | _ => False

section Step

variable {advertised : P.State → Fin n → Prop} {σ σ' : State (P.policy concurrency) A C}

/-- The thread is on its way to `s`, polls it or dispatches to it. -/
@[simp] def Pc.Serves (pc : Pc (P.policy concurrency) A) (s : Fin n) : Prop :=
  pc.Picked s ∨ pc.Polling s ∨ pc.Dispatching s

theorem serves_thread {t : Fin T} {pc : Pc (P.policy concurrency) A} (hpc : σ.pc t = pc)
    (s : Fin n) : Serves σ s (.inl t) ↔ pc.Serves s := by
  rw [Serves, hpc, Pc.Serves]

/-- A thread that moves from `before` to `pc`. -/
theorem NoWorkLost.keepThread (h : NoWorkLost advertised σ) {t : Fin T}
    {before pc : Pc (P.policy concurrency) A} (hbefore : σ.pc t = before)
    (hpc : σ'.pc = Function.update σ.pc t pc) (hclient : σ'.client = σ.client)
    (hqueue : ∀ s, σ'.queue s ≠ [] → σ.queue s ≠ [] ∨ pc.Serves s)
    (hown : ∀ s, advertised σ.policy.own s → advertised σ'.policy.own s ∨ pc.Serves s)
    (hserves : ∀ s, σ'.queue s ≠ [] → before.Serves s →
      advertised σ'.policy.own s ∨ pc.Serves s) : NoWorkLost advertised σ' := by
  have hafter : ∀ s, Serves σ' s (.inl t) ↔ pc.Serves s :=
    serves_thread (by rw [hpc, Function.update_self])
  refine h.keep (onlyMoves_thread hpc hclient) (fun s hne => ?_) fun s hne hs => ?_
  · rw [hafter]
    exact hqueue s hne
  · rw [hafter]
    rcases hs with hadv | hs
    · exact hown s hadv
    · exact hserves s hne ((serves_thread hbefore s).mp hs)

/-- A thread that serves nothing moves on. -/
theorem NoWorkLost.idle (h : NoWorkLost advertised σ) {t : Fin T}
    {before pc : Pc (P.policy concurrency) A} (hbefore : σ.pc t = before)
    (hidle : ∀ s, ¬ before.Serves s) (hpc : σ'.pc = Function.update σ.pc t pc)
    (hclient : σ'.client = σ.client) (hqueue : σ'.queue = σ.queue)
    (hown : ∀ s, advertised σ.policy.own s → advertised σ'.policy.own s) :
    NoWorkLost advertised σ' := by
  refine h.keepThread hbefore hpc hclient (fun s hne => .inl ?_) (fun s hs => .inl (hown s hs))
    fun s _ hs => absurd hs (hidle s)
  rwa [hqueue] at hne

/-- A thread moves on and serves what it has served. -/
theorem NoWorkLost.goOn (h : NoWorkLost advertised σ) {t : Fin T}
    {before pc : Pc (P.policy concurrency) A} (hbefore : σ.pc t = before)
    (hpc : σ'.pc = Function.update σ.pc t pc) (hclient : σ'.client = σ.client)
    (hqueue : σ'.queue = σ.queue) (hown : σ'.policy.own = σ.policy.own)
    (hserves : ∀ s, before.Serves s → pc.Serves s) : NoWorkLost advertised σ' := by
  refine h.keepThread hbefore hpc hclient (fun s hne => .inl ?_) (fun s hs => .inl ?_)
    fun s _ hs => .inr (hserves s hs)
  · rwa [hqueue] at hne
  · rwa [hown]

theorem Refuses.serves_iff {t : Fin T} {s : Fin n} (h : Refuses σ t s) (s' : Fin n) :
    Serves σ s' (.inl t) ↔ s' = s := by
  unfold Refuses at h
  split at h
  · rename_i hpc
    rw [serves_thread hpc, h.1]
    simp [eq_comm]
  · rename_i hpc
    rw [serves_thread hpc, h.1]
    simp [eq_comm]
  · exact h.elim

/-- A thread that stops serving `s` and moves to `pc`. -/
theorem NoWorkLost.dropThread (h : NoWorkLost advertised σ) {t : Fin T}
    {before : Pc (P.policy concurrency) A} (hbefore : σ.pc t = before)
    (pc : Pc (P.policy concurrency) A) (policy : P.Shared) (s : Fin n) (hgone : ¬ pc.Serves s)
    (hown : ∀ s', s' ≠ s → advertised σ.policy.own s' → advertised policy.own s')
    (hserves : ∀ s', s' ≠ s → before.Serves s' → pc.Serves s') :
    NoWorkLost advertised ((σ.setPolicy policy).setPc t pc) ↔
      ¬ Strands advertised σ (.inl t) s policy.own := by
  have hpc : ((σ.setPolicy policy).setPc t pc).pc t = pc := Function.update_self _ _ _
  have hmove : OnlyMoves σ ((σ.setPolicy policy).setPc t pc) (.inl t) := onlyMoves_thread rfl rfl
  refine h.drop hmove rfl s ?_ fun s' hs' hs => ?_
  · rw [serves_thread hpc]
    exact hgone
  · rw [serves_thread hpc]
    rw [serves_thread hbefore] at hs
    exact hs.imp (hown s' hs') (hserves s' hs')

/-- Which of the conditions of `LosesWork` the settling of a refused pick is about. -/
theorem losesWork_refused_iff {t : Fin T} {s : Fin n} {c : P.Cursor}
    (hpc : σ.pc t = .nextStage (.refused (some s) c)) (e : P.Entropy) (v : A.Env) :
    LosesWork advertised σ (.thread t e v) ↔
      Strands advertised σ (.inl t) s (P.settle σ.policy.own (some s)) := by
  simp only [LosesWork, Refuses, hpc]
  constructor
  · rintro (⟨_, hrefuses, _⟩ | ⟨s', c', heq, hstrands⟩ | ⟨_, _, _, _, heq, _⟩)
    · exact hrefuses.elim
    · cases heq
      exact hstrands
    · cases heq
  · exact fun hstrands => .inr (.inl ⟨s, c, rfl, hstrands⟩)

/-- Which of the conditions of `LosesWork` the bookkeeping of a dispatch is about. -/
theorem losesWork_pushed_iff {t : Fin T} {r s : Fin n} {m : A.Message}
    {todo : List (Fin n × A.Message)} (hpc : σ.pc t = .pushed r m s todo) (e : P.Entropy)
    (v : A.Env) : LosesWork advertised σ (.thread t e v) ↔
      r ≠ s ∧ Strands advertised σ (.inl t) s (P.dispatched σ.policy.own s) := by
  simp only [LosesWork, Refuses, hpc]
  constructor
  · rintro (⟨_, hrefuses, _⟩ | ⟨_, _, heq, _⟩ | ⟨r', m', s', todo', heq, hstrands⟩)
    · exact hrefuses.elim
    · cases heq
    · cases heq
      exact hstrands
  · exact fun hstrands => .inr (.inr ⟨r, m, s, todo, rfl, hstrands⟩)

/-- Which of the conditions of `LosesWork` a refusal is about. -/
theorem Refuses.losesWork_iff {t : Fin T} {s : Fin n} (h : Refuses σ t s) (e : P.Entropy)
    (v : A.Env) : LosesWork advertised σ (.thread t e v) ↔
      Strands advertised σ (.inl t) s σ.policy.own := by
  constructor
  · rintro (⟨s', hrefuses, hstrands⟩ | ⟨s', c, hpc, _⟩ | ⟨r, m, s', todo, hpc, _⟩)
    · have hs : s' = s := (h.serves_iff s').mp ((hrefuses.serves_iff s').mpr rfl)
      exact hs ▸ hstrands
    · rw [Refuses, hpc] at h
      exact h.elim
    · rw [Refuses, hpc] at h
      exact h.elim
  · exact fun hstrands => .inl ⟨s, h, hstrands⟩

/-- `tryAssign` refuses the stage that the thread has picked. -/
theorem NoWorkLost.refuse (h : NoWorkLost advertised σ) {t : Fin T} {s : Fin n}
    (hrefuses : Refuses σ t s) (c : P.Cursor) (e : P.Entropy) (v : A.Env) :
    NoWorkLost advertised ((σ.setPolicy σ.policy).setPc t (.nextStage (.refused (some s) c))) ↔
      ¬ LosesWork advertised σ (.thread t e v) := by
  rw [hrefuses.losesWork_iff]
  refine h.dropThread rfl _ σ.policy s (by simp) (fun _ _ hs => hs) fun s' hs' hs => ?_
  exact absurd ((hrefuses.serves_iff s').mp ((serves_thread rfl s').mpr hs)) hs'

/-- The load of `tryAssign` refuses a stage whose counter is at the limit. -/
theorem noWorkLost_load (h : NoWorkLost advertised σ) {t : Fin T} {e : P.Entropy} {v : A.Env}
    {s : Fin n} {c : P.Cursor} {p' : P.Pc} {policy : P.Shared}
    (hpc : σ.pc t = .nextStage (.load (some s) c))
    (hp : Call.step σ.policy t e (.load (some s) c) = (policy, .inl p')) :
    NoWorkLost advertised ((σ.setPolicy policy).setPc t (.nextStage p')) ↔
      ¬ LosesWork advertised σ (.thread t e v) := by
  simp only [Call.step] at hp
  split at hp
  · rename_i hroom
    cases hp
    -- the counter was read below the limit, so this is not a refusal
    have hno : ∀ s', ¬ Refuses σ t s' := by
      intro s' hrefuses
      rw [Refuses, hpc] at hrefuses
      obtain ⟨heq, hnot⟩ := hrefuses
      cases heq
      exact hnot hroom
    refine iff_of_true (h.goOn hpc rfl rfl rfl rfl fun s' => ?_) (by simp [LosesWork, hpc, hno])
    simp
  · rename_i hroom
    cases hp
    have hrefuses : Refuses σ t s := by
      rw [Refuses, hpc]
      exact ⟨rfl, hroom⟩
    exact h.refuse hrefuses c e v

/-- The exchange of `tryAssign` refuses a stage whose counter has changed since the load. -/
theorem noWorkLost_exchange (h : NoWorkLost advertised σ) {t : Fin T} {e : P.Entropy} {v : A.Env}
    {s : Fin n} {seen : SizeT} {c : P.Cursor} {p' : P.Pc} {policy : P.Shared}
    (hpc : σ.pc t = .nextStage (.exchange s seen c))
    (hp : Call.step σ.policy t e (.exchange s seen c) = (policy, .inl p')) :
    NoWorkLost advertised ((σ.setPolicy policy).setPc t (.nextStage p')) ↔
      ¬ LosesWork advertised σ (.thread t e v) := by
  simp only [Call.step] at hp
  split at hp
  · rename_i ta hta
    cases hp
    -- the counter still has the value that was read
    have heq := (ThreadAssignments.compareExchange_eq_some hta).1
    have hno : ∀ s', ¬ Refuses σ t s' := by
      intro s' hrefuses
      rw [Refuses, hpc] at hrefuses
      exact hrefuses.2 (hrefuses.1 ▸ heq)
    refine iff_of_true (h.goOn hpc rfl rfl rfl rfl fun s' => ?_) (by simp [LosesWork, hpc, hno])
    simp
  · rename_i hta
    cases hp
    have hrefuses : Refuses σ t s := by
      rw [Refuses, hpc]
      refine ⟨rfl, fun heq => ?_⟩
      rw [ThreadAssignments.compareExchange, if_pos heq] at hta
      cases hta
    exact h.refuse hrefuses c e v

/-- A step inside `nextStage`. -/
theorem noWorkLost_call (hadv : Advertises advertised) (h : NoWorkLost advertised σ) {t : Fin T}
    {e : P.Entropy} {v : A.Env} {p p' : P.Pc} {policy : P.Shared} (hpc : σ.pc t = .nextStage p)
    (hp : Call.step σ.policy t e p = (policy, .inl p')) :
    NoWorkLost advertised ((σ.setPolicy policy).setPc t (.nextStage p')) ↔
      ¬ LosesWork advertised σ (.thread t e v) := by
  cases p with
  | enter =>
    have hown : policy.own = σ.policy.own := by
      simp only [Call.step] at hp
      split at hp <;> cases hp <;> rfl
    refine iff_of_true (h.idle hpc (by simp) rfl rfl rfl fun s hs => ?_)
      (by simp [LosesWork, Refuses, hpc])
    rwa [State.setPc_policy, State.setPolicy_policy, hown]
  | decrement s =>
    cases hp
    exact iff_of_true (h.idle hpc (by simp) rfl rfl rfl fun _ hs => hs)
      (by simp [LosesWork, Refuses, hpc])
  | clear s =>
    cases hp
    exact iff_of_true (h.idle hpc (by simp) rfl rfl rfl fun _ hs => hs)
      (by simp [LosesWork, Refuses, hpc])
  | start original =>
    cases hp
    exact iff_of_true (h.idle hpc (by simp) rfl rfl rfl fun _ hs => hs)
      (by simp [LosesWork, Refuses, hpc])
  | choose cursor =>
    cases hp
    refine iff_of_true ?_ (by simp [LosesWork, Refuses, hpc])
    -- a stage that is no longer advertised is the one the thread has picked
    refine h.keepThread hpc rfl rfl (fun _ hne => .inl hne) (fun s hs => ?_) (by simp)
    exact (hadv.choose _ t cursor e s hs).symm.imp_right .inl
  | load next cursor =>
    cases next with
    | none =>
      cases hp
      exact iff_of_true (h.idle hpc (by simp) rfl rfl rfl fun _ hs => hs)
        (by simp [LosesWork, Refuses, hpc])
    | some next => exact noWorkLost_load h hpc hp
  | exchange next seen cursor => exact noWorkLost_exchange h hpc hp
  | record next =>
    cases hp
    refine iff_of_true (h.goOn hpc rfl rfl rfl rfl fun s => ?_) (by simp [LosesWork, Refuses, hpc])
    simp
  | refused next cursor =>
    cases hp
    cases next with
    | none =>
      refine iff_of_true ?_ (by simp [LosesWork, Refuses, hpc])
      exact h.idle hpc (by simp) rfl rfl rfl fun s hs => hadv.settle _ none s (by simp) hs
    | some next =>
      -- the refused stage has not been served since the refusal, but it may lose its estimate here
      rw [losesWork_refused_iff hpc]
      refine h.dropThread hpc _ _ next (by simp) (fun s hs hbefore => ?_) (by simp)
      exact hadv.settle _ (some next) s (fun h => hs (Option.some.inj h).symm) hbefore
  | assigned next => cases hp

/-- The thread enters the stage that it has been assigned to, and polls it from now on. -/
theorem noWorkLost_visit (hadv : Advertises advertised) (h : NoWorkLost advertised σ)
    {t : Fin T} {s : Fin n} (hpc : σ.pc t = .nextStage (.assigned s)) :
    NoWorkLost advertised
      ((σ.setPolicy { σ.policy with own := P.settle σ.policy.own (some s) }).setPc t
        (.poll s)) := by
  refine h.keepThread hpc rfl rfl (fun _ hne => .inl hne) (fun s' hs => ?_) fun s' _ hs => .inr ?_
  · by_cases heq : s = s'
    · exact .inr (.inr (.inl heq))
    · exact .inl (hadv.settle _ (some s) s' (fun h => heq (Option.some.inj h)) hs)
  · simpa using hs

/-- A thread keeps polling the stage from which it has popped a message. -/
theorem noWorkLost_pop (h : NoWorkLost advertised σ) {t : Fin T} {s : Fin n} {m : A.Message}
    {rest : List A.Message} (v : A.Env) (hpc : σ.pc t = .poll s) (hq : σ.queue s = m :: rest) :
    NoWorkLost advertised ((σ.pop s m rest).setPc t (.running s m (A.functor s m v))) := by
  refine h.keepThread hpc rfl rfl (fun s' hne => .inl ?_) (fun _ hs => .inl hs)
    fun s' _ hs => .inr ?_
  · by_cases heq : s' = s
    · rw [heq, hq]
      exact List.cons_ne_nil _ _
    · rwa [State.setPc_queue, State.pop_queue, Function.update_of_ne heq] at hne
  · simpa using hs

/-- Until its bookkeeping a dispatch looks after its target. -/
theorem noWorkLost_push (h : NoWorkLost advertised σ) {t : Fin T} {s target : Fin n}
    {m m' : A.Message} {todo : List (Fin n × A.Message)}
    (hpc : σ.pc t = .running s m ((target, m') :: todo)) :
    NoWorkLost advertised
      (((σ.push target m').forward s m').setPc t (.pushed s m target todo)) := by
  refine h.keepThread hpc rfl rfl (fun s' hne => ?_) (fun _ hs => .inl hs) fun s' _ hs => .inr ?_
  · by_cases heq : s' = target
    · exact .inr (.inr (.inr heq.symm))
    · rw [State.setPc_queue, State.forward_queue, State.push_queue,
        Function.update_of_ne heq] at hne
      exact .inl hne
  · simp only [Pc.Serves, Pc.Picked, Pc.Polling, Pc.Dispatching, false_or, or_false] at hs ⊢
    exact .inl hs

/-- With its bookkeeping a dispatch stops looking after its target. -/
theorem noWorkLost_account (hadv : Advertises advertised) (h : NoWorkLost advertised σ)
    {t : Fin T} {s target : Fin n} {m : A.Message} {todo : List (Fin n × A.Message)}
    (hpc : σ.pc t = .pushed s m target todo) (e : P.Entropy) (v : A.Env) :
    NoWorkLost advertised
        ((σ.setPolicy ((P.policy concurrency).dispatched σ.policy target)).setPc t
          (.running s m todo)) ↔
      ¬ LosesWork advertised σ (.thread t e v) := by
  rw [losesWork_pushed_iff hpc]
  by_cases heq : s = target
  · -- the dispatching thread itself goes on to poll the target
    subst target
    refine iff_of_true ?_ fun hstrands => hstrands.1 rfl
    refine h.keepThread hpc rfl rfl (fun _ hne => .inl hne) (fun s' hs => ?_) fun s' _ hs => .inr ?_
    · by_cases hs' : s = s'
      · exact .inr (.inr (.inl hs'))
      · exact .inl (hadv.dispatched _ s s' (Ne.symm hs') hs)
    · simpa using hs
  · rw [and_iff_right heq]
    refine h.dropThread hpc _ _ target (by simpa using heq)
      (fun s' hs' hs => hadv.dispatched _ target s' hs' hs) fun s' hs' hs => ?_
    simp only [Pc.Serves, Pc.Picked, Pc.Polling, Pc.Dispatching, false_or, or_false] at hs ⊢
    exact hs.resolve_right (Ne.symm hs')

/-- A visit that an exception ends has no empty poll. -/
theorem noWorkLost_throw (h : NoWorkLost advertised σ) {t : Fin T} {s : Fin n} {m : A.Message}
    {todo : List (Fin n × A.Message)} (hpc : σ.pc t = .running s m todo) :
    NoWorkLost advertised (σ.setPc t .exited) ↔ ¬ LosesWork advertised σ (.throw t) := by
  have hdrop := h.dropThread hpc .exited σ.policy s (by simp) (fun _ _ hs => hs)
    fun s' hs' hs => by simp [Ne.symm hs'] at hs
  refine hdrop.trans (not_congr ⟨fun hstrands => ⟨s, m, todo, hpc, hstrands⟩, ?_⟩)
  rintro ⟨_, _, _, hpc', hstrands⟩
  rw [hpc] at hpc'
  cases hpc'
  exact hstrands

/-- A client is in the dispatch that it has begun. -/
theorem noWorkLost_clientPush (h : NoWorkLost advertised σ) {c : Fin C} (hc : σ.client c = none)
    (target : Fin n) (m : A.Message) :
    NoWorkLost advertised ((σ.push target m).setClient c (some target)) := by
  refine h.keep (a := .inr c) (onlyMoves_client rfl rfl) (fun s hne => ?_) fun s _ hs => ?_
  · by_cases heq : s = target
    · subst s
      exact .inr (Function.update_self _ _ _)
    · rw [State.setClient_queue, State.push_queue, Function.update_of_ne heq] at hne
      exact .inl hne
  · refine hs.imp_right fun hs => ?_
    rw [Serves, hc] at hs
    cases hs

/-- The bookkeeping of a client's dispatch. -/
theorem noWorkLost_clientDone (hadv : Advertises advertised) (h : NoWorkLost advertised σ)
    {c : Fin C} {target : Fin n} (hc : σ.client c = some target) :
    NoWorkLost advertised
        ((σ.setPolicy ((P.policy concurrency).dispatched σ.policy target)).setClient c none) ↔
      ¬ LosesWork advertised σ (.dispatched c) := by
  have hmove : OnlyMoves σ
      ((σ.setPolicy ((P.policy concurrency).dispatched σ.policy target)).setClient c none)
      (.inr c) := onlyMoves_client rfl rfl
  refine (h.drop hmove rfl target ?_ fun s hs hbefore => ?_).trans
    (not_congr ⟨fun hstrands => ⟨target, hc, hstrands⟩, ?_⟩)
  · rw [Serves, State.setClient_client, Function.update_self]
    simp
  · rcases hbefore with hbefore | hbefore
    · exact .inl (hadv.dispatched _ target s hs hbefore)
    · rw [Serves, hc] at hbefore
      exact absurd (Option.some.inj hbefore).symm hs
  · rintro ⟨s, hs, hstrands⟩
    rw [hc] at hs
    cases hs
    exact hstrands

/-- Every step either keeps all work looked after or is one of the steps of `LosesWork`. -/
theorem noWorkLost_step (hadv : Advertises advertised) (h : NoWorkLost advertised σ)
    {a : Action (P.policy concurrency) A C} (hs : Step σ a σ') :
    NoWorkLost advertised σ' ↔ ¬ LosesWork advertised σ a := by
  cases hs with
  | leave t e v hpc hd =>
    exact iff_of_true (h.idle hpc (by simp) rfl rfl rfl fun _ hs => hs)
      (by simp [LosesWork, Refuses, hpc])
  | enter t e v hpc hd =>
    exact iff_of_true (h.idle hpc (by simp) rfl rfl rfl fun _ hs => hs)
      (by simp [LosesWork, Refuses, hpc])
  | call t e v p policy p' hpc hp => exact noWorkLost_call hadv h hpc hp
  | visit t e v p policy s hpc hp =>
    obtain ⟨rfl, rfl⟩ := Call.step_eq_inr hp
    exact iff_of_true (noWorkLost_visit hadv h hpc) (by simp [LosesWork, Refuses, hpc])
  | pop t e v s m rest hpc hq =>
    exact iff_of_true (noWorkLost_pop h v hpc hq) (by simp [LosesWork, Refuses, hpc])
  | empty t e v s hpc hq =>
    refine iff_of_true ?_ (by simp [LosesWork, Refuses, hpc])
    refine h.keepThread hpc rfl rfl (fun _ hne => .inl hne) (fun _ hs => .inl hs)
      fun s' hne hs => ?_
    -- the only stage that the thread polls is the one it found empty
    simp only [Pc.Serves, Pc.Picked, Pc.Polling, Pc.Dispatching, false_or, or_false] at hs
    exact absurd (hs ▸ hq) hne
  | push t e v s m target m' todo hpc =>
    exact iff_of_true (noWorkLost_push h hpc) (by simp [LosesWork, Refuses, hpc])
  | account t e v s m target todo hpc => exact noWorkLost_account hadv h hpc e v
  | returns t e v s m hpc =>
    refine iff_of_true (h.goOn hpc rfl rfl rfl rfl fun s' => ?_) (by simp [LosesWork, Refuses, hpc])
    simp
  | batchEnd t e v s info hpc =>
    exact iff_of_true (h.idle hpc (by simp) rfl rfl rfl fun s hs => hadv.batchEnd _ _ s hs)
      (by simp [LosesWork, Refuses, hpc])
  | throw t s m todo _ hpc => exact noWorkLost_throw h hpc
  | clientPush c target m hc _ =>
    exact iff_of_true (noWorkLost_clientPush h hc target m) (by simp [LosesWork])
  | clientDone c target hc => exact noWorkLost_clientDone hadv h hc
  | stop => exact iff_of_true h (by simp [LosesWork])

end Step

end Wield.SchedulerBase
