import Snippets.Proofs.AnySurface

/-!
# The guard over time

A sync that waits for its tick can be overtaken by anything: a flush, a cancellation, a session that
opens on top. The log of a run keeps every event with the scenes around it. Main statement: in
whatever order things happen, every operation has an id of its own, is applied at most once, and
runs on a tick only if nothing but effects and changes of the surface came between, and its session
is still on top.
-/

namespace Snippets

/-- What can happen to a scene, as far as its guard can tell: what the guard is asked for, effects
on the stack, and anything at all on the surface. -/
inductive Event (σ : Type) where
  | request
  | now
  | flush
  | tick
  | cancel
  | effect (e : Effect)
  | surface (surface : σ)

structure Entry (σ : Type) where
  before : Scene σ
  event : Event σ
  outcome : Option Sync.Outcome
  after : Scene σ

namespace Stack

def topId? (s : Stack) : Option Nat := s.top?.map (·.id)

theorem topId?_mem {s : Stack} {id : Nat} (h : s.topId? = some id) : id ∈ s.ids := by
  obtain ⟨top, htop, rfl⟩ := Option.map_eq_some_iff.mp h
  exact List.mem_map_of_mem (List.mem_of_head? htop)

end Stack

namespace Entry

variable {σ : Type}

def issued? (e : Entry σ) : Option Nat :=
  if e.after.guard.latest = e.before.guard.latest then none else some e.after.guard.latest

def applied? (e : Entry σ) : Option Nat :=
  match e.outcome with
  | some (.applied op _) => some op
  | _ => none

/-- A sync that waits goes on waiting: it was not run or given up, and nothing was accepted
besides it. -/
def Passes (e : Entry σ) : Prop :=
  match e.event with
  | .request | .now => e.outcome = some (.skipped .inFlight) ∧ e.after = e.before
  | .effect _ | .surface _ => e.after.guard = e.before.guard
  | .flush | .tick | .cancel => False

end Entry

namespace Scene

variable {σ : Type} [Surface σ]

def respond (s : Scene σ) : Event σ → Option Sync.Outcome × Scene σ
  | .request => (some s.requestSync.1, s.requestSync.2)
  | .now => (some s.syncNow.1, s.syncNow.2)
  | .flush => (some s.flush.1, s.flush.2)
  | .tick => s.tick
  | .cancel => (none, s.cancelSync)
  | .effect e => (none, s.effect e)
  | .surface surface => (none, { s with surface })

def entry (s : Scene σ) (event : Event σ) : Entry σ :=
  ⟨s, event, (s.respond event).1, (s.respond event).2⟩

def log (s : Scene σ) : List (Event σ) → List (Entry σ)
  | [] => []
  | event :: rest => s.entry event :: (s.respond event).2.log rest

end Scene

/-! ## What is true of a log -/

section

variable {σ : Type}

/-- The operation was scheduled by a request made while the session was on top. Since then no sync
was accepted, run or given up, and unless the session was closed in the end, it was open all the
time. -/
def Awaits (log : List (Entry σ)) (op session : Nat) (now : Scene σ) : Prop :=
  ∃ earlier request since, log = earlier ++ request :: since ∧
    request.event = .request ∧ request.outcome = some (.scheduled op) ∧
    request.before.stack.topId? = some session ∧
    ∀ e ∈ since, e.Passes ∧ (session ∈ now.stack.ids →
      session ∈ e.before.stack.ids ∧ session ∈ e.after.stack.ids)

structure OneShot (log : List (Entry σ)) : Prop where
  issued_ascending : (log.filterMap Entry.issued?).Pairwise (· < ·)
  issued_singly : ∀ e ∈ log, e.after.guard.latest ≤ e.before.guard.latest + 1
  scheduled_fresh : ∀ e ∈ log, ∀ op, e.outcome = some (.scheduled op) → e.issued? = some op
  /-- So no operation is applied twice. -/
  applied_ascending : (log.filterMap Entry.applied?).Pairwise (· < ·)
  applied_issued : ∀ earlier e later, log = earlier ++ e :: later → ∀ op, e.applied? = some op →
    op ∈ (earlier ++ [e]).filterMap Entry.issued?
  refused : ∀ e ∈ log, e.before.guard.inFlight → e.event = .request ∨ e.event = .now →
    e.outcome = some (.skipped .inFlight) ∧ e.after = e.before
  awaited : ∀ earlier e later, log = earlier ++ e :: later → e.event = .tick →
    ∀ op, e.applied? = some op → ∃ session, e.before.stack.topId? = some session ∧
      Awaits earlier op session e.before

end

namespace Scene

variable {σ : Type} {s s' : Scene σ} {event : Event σ} {outcome : Option Sync.Outcome}

/-! ## One event -/

def Silent (outcome : Option Sync.Outcome) : Prop :=
  outcome = none ∨ ∃ reason, outcome = some (.skipped reason)

inductive Advances (s : Scene σ) (event : Event σ) : Option Sync.Outcome → Scene σ → Prop where
  | kept (outcome : Option Sync.Outcome) (s' : Scene σ) : Silent outcome → s'.guard = s.guard →
      (s.guard.inFlight → Entry.Passes ⟨s, event, outcome, s'⟩) → Advances s event outcome s'
  | ended (outcome : Option Sync.Outcome) (s' : Scene σ) : Silent outcome →
      s'.guard = s.guard.settle ∨ s'.guard = s.guard.issue.settle → Advances s event outcome s'
  | scheduled (session : Nat) (s' : Scene σ) : event = .request → s.stack.topId? = some session →
      s'.guard = ⟨.scheduled s.guard.issue.latest session, s.guard.issue.latest⟩ →
      Advances s event (some (.scheduled s.guard.issue.latest)) s'
  | applied (count : Nat) (s' : Scene σ) : event ≠ .tick →
      s'.guard = ⟨.settling s.guard.issue.latest, s.guard.issue.latest⟩ →
      Advances s event (some (.applied s.guard.issue.latest count)) s'
  /-- The sync that was waiting is applied. -/
  | carriedOut (session count : Nat) (s' : Scene σ) :
      s.guard.phase = .scheduled s.guard.latest session → s.stack.topId? = some session →
      s'.guard = ⟨.settling s.guard.latest, s.guard.latest⟩ →
      Advances s event (some (.applied s.guard.latest count)) s'

theorem advances_request (s : Scene σ) :
    Advances s .request (some s.requestSync.1) s.requestSync.2 := by
  unfold requestSync Sync.Guard.request
  by_cases hflight : s.guard.inFlight
  · simp only [if_pos hflight]
    exact .kept _ _ (Or.inr ⟨_, rfl⟩) rfl fun _ => ⟨rfl, rfl⟩
  · simp only [if_neg hflight]
    cases htop : s.stack.top? with
    | none => exact .kept _ _ (Or.inr ⟨_, rfl⟩) rfl fun h => absurd h hflight
    | some top =>
      refine .scheduled top.id _ rfl ?_ rfl
      rw [Stack.topId?, htop]
      rfl

theorem Concluded.advances_afresh {o : Sync.Outcome} {guard : Sync.Guard}
    (h : Concluded s.guard.issue.latest { s with guard } o s')
    (given : guard.latest = s.guard.issue.latest) (later : event ≠ .tick) :
    Advances s event (some o) s' := by
  cases h with
  | applied count _ _ hguard => exact .applied count s' later (given ▸ hguard)
  | skipped reason _ _ hguard =>
    refine .ended _ s' (Or.inr ⟨reason, rfl⟩) (Or.inr ?_)
    rw [hguard, Sync.Guard.settle, given]
    rfl

theorem Concluded.advances_waiting {o : Sync.Outcome} {session : Nat}
    (h : Concluded s.guard.latest s o s')
    (waiting : s.guard.phase = .scheduled s.guard.latest session)
    (top : s.stack.topId? = some session) : Advances s event (some o) s' := by
  cases h with
  | applied count _ _ hguard => exact .carriedOut session count s' waiting top hguard
  | skipped reason _ _ hguard => exact .ended _ s' (Or.inr ⟨reason, rfl⟩) (Or.inl hguard)

theorem Advances.latest (h : Advances s event outcome s') :
    s'.guard.latest = s.guard.latest ∨ s'.guard.latest = s.guard.latest + 1 := by
  cases h with
  | kept _ _ _ hguard => exact Or.inl (by rw [hguard])
  | ended _ _ _ hguard =>
    rcases hguard with hguard | hguard
    · exact Or.inl (by rw [hguard]; rfl)
    · exact Or.inr (by rw [hguard]; rfl)
  | scheduled _ _ _ _ hguard => exact Or.inr (by rw [hguard]; rfl)
  | applied _ _ _ hguard => exact Or.inr (by rw [hguard]; rfl)
  | carriedOut _ _ _ _ _ hguard => exact Or.inl (by rw [hguard])

theorem Silent.not_reported (h : Silent outcome) {o : Sync.Outcome} (ho : outcome = some o) :
    ∃ reason, o = .skipped reason := by
  rcases h with h | ⟨reason, h⟩
  · rw [h] at ho
    cases ho
  · rw [h] at ho
    cases ho
    exact ⟨reason, rfl⟩

theorem Advances.scheduled_fresh (h : Advances s event outcome s') {op : Nat}
    (ho : outcome = some (.scheduled op)) : op = s.guard.latest + 1 ∧ s'.guard.latest = op := by
  cases h with
  | kept _ _ hsilent => cases (hsilent.not_reported ho).choose_spec
  | ended _ _ hsilent => cases (hsilent.not_reported ho).choose_spec
  | scheduled _ _ _ _ hguard =>
    cases ho
    exact ⟨rfl, by rw [hguard]⟩
  | applied => cases ho
  | carriedOut => cases ho

/-- An operation that is applied is new, or it is the one that was waiting. -/
theorem Advances.applied_cases (h : Advances s event outcome s') {op count : Nat}
    (ho : outcome = some (.applied op count)) : s'.guard.latest = op ∧
      ((event ≠ .tick ∧ op = s.guard.latest + 1) ∨ (op = s.guard.latest ∧
        ∃ session, s.guard.phase = .scheduled op session ∧ s.stack.topId? = some session)) := by
  cases h with
  | kept _ _ hsilent => cases (hsilent.not_reported ho).choose_spec
  | ended _ _ hsilent => cases (hsilent.not_reported ho).choose_spec
  | scheduled => cases ho
  | applied _ _ hlater hguard =>
    cases ho
    exact ⟨by rw [hguard], Or.inl ⟨hlater, rfl⟩⟩
  | carriedOut session _ _ hphase htop hguard =>
    cases ho
    exact ⟨by rw [hguard], Or.inr ⟨rfl, session, hphase, htop⟩⟩

/-- A sync that waits was waiting before, or it was scheduled just now. -/
theorem Advances.waiting_cases (h : Advances s event outcome s') {op session : Nat}
    (waiting : s'.guard.phase = .scheduled op session) :
    (s.guard.phase = .scheduled op session ∧ s'.guard = s.guard ∧ Silent outcome ∧
        Entry.Passes ⟨s, event, outcome, s'⟩) ∨
      (event = .request ∧ outcome = some (.scheduled op) ∧ s.stack.topId? = some session) := by
  cases h with
  | kept _ _ hsilent hguard hpasses =>
    rw [hguard] at waiting
    refine Or.inl ⟨waiting, hguard, hsilent, hpasses ?_⟩
    rw [Sync.Guard.inFlight, waiting]
    rfl
  | ended _ _ _ hguard =>
    rcases hguard with hguard | hguard
    · rw [hguard] at waiting
      cases waiting
    · rw [hguard] at waiting
      cases waiting
  | scheduled _ _ hevent htop hguard =>
    rw [hguard] at waiting
    cases waiting
    exact Or.inr ⟨hevent, rfl, htop⟩
  | applied _ _ _ hguard =>
    rw [hguard] at waiting
    cases waiting
  | carriedOut _ _ _ _ _ hguard =>
    rw [hguard] at waiting
    cases waiting

theorem isCurrent_iff {g : Sync.Guard} {op session : Nat} {stack : Stack} :
    g.isCurrent op session stack = true ↔ op = g.latest ∧ stack.topId? = some session := by
  simp [Sync.Guard.isCurrent, Stack.topId?]

variable [Surface σ]

theorem advances_now (s : Scene σ) : Advances s .now (some s.syncNow.1) s.syncNow.2 := by
  unfold syncNow
  by_cases hflight : s.guard.inFlight
  · rw [if_pos hflight]
    exact .kept _ _ (Or.inr ⟨_, rfl⟩) rfl fun _ => ⟨rfl, rfl⟩
  · rw [if_neg hflight]
    exact (concluded _ { s with guard := s.guard.issue }).advances_afresh rfl nofun

theorem advances_flush (s : Scene σ) : Advances s .flush (some s.flush.1) s.flush.2 := by
  have hafresh : Advances s .flush (some (syncNow { s with guard := s.guard.settle }).1)
      (syncNow { s with guard := s.guard.settle }).2 :=
    (concluded s.guard.issue.latest { s with guard := s.guard.settle.issue }).advances_afresh rfl
      nofun
  unfold flush
  dsimp only
  split
  · rename_i op session hphase
    by_cases hcurrent : s.guard.isCurrent op session s.stack
    · rw [if_pos hcurrent]
      obtain ⟨rfl, htop⟩ := isCurrent_iff.mp hcurrent
      exact (concluded _ s).advances_waiting hphase htop
    · rw [if_neg hcurrent]
      exact hafresh
  · exact hafresh

theorem advances_tick (s : Scene σ) : Advances s .tick s.tick.1 s.tick.2 := by
  unfold tick
  split
  · rename_i hphase
    refine .kept _ _ (Or.inl rfl) rfl fun hflight => ?_
    simp [Sync.Guard.inFlight, hphase] at hflight
  · rename_i op session hphase
    by_cases hcurrent : s.guard.isCurrent op session s.stack
    · rw [if_pos hcurrent]
      obtain ⟨rfl, htop⟩ := isCurrent_iff.mp hcurrent
      exact (concluded _ s).advances_waiting hphase htop
    · rw [if_neg hcurrent]
      exact .ended _ _ (Or.inr ⟨_, rfl⟩) (Or.inl rfl)
  · exact .ended _ _ (Or.inl rfl) (Or.inl rfl)

theorem advances (s : Scene σ) (event : Event σ) :
    Advances s event (s.respond event).1 (s.respond event).2 := by
  cases event with
  | request => exact advances_request s
  | now => exact advances_now s
  | flush => exact advances_flush s
  | tick => exact advances_tick s
  | cancel => exact .ended _ _ (Or.inl rfl) (Or.inr rfl)
  | effect e => exact .kept _ _ (Or.inl rfl) rfl fun _ => rfl
  | surface surface => exact .kept _ _ (Or.inl rfl) rfl fun _ => rfl

theorem respond_of_inFlight (flight : s.guard.inFlight) (h : event = .request ∨ event = .now) :
    s.respond event = (some (.skipped .inFlight), s) := by
  rcases h with rfl | rfl
  · simp [respond, requestSync, Sync.Guard.request, flight]
  · simp [respond, syncNow, flight]

/-- An event opens one session with the next id, or it opens none. -/
theorem ids_respond (s : Scene σ) (event : Event σ) :
    ((s.respond event).2.stack.ids = s.stack.nextId :: s.stack.ids ∧
        (s.respond event).2.stack.nextId = s.stack.nextId + 1) ∨
      ((s.respond event).2.stack.ids.Sublist s.stack.ids ∧
        (s.respond event).2.stack.nextId = s.stack.nextId) := by
  have hstays {stack : Stack} (h : s.stack.Stays stack) :
      stack.ids.Sublist s.stack.ids ∧ stack.nextId = s.stack.nextId :=
    ⟨h.ids ▸ .refl _, h.nextId⟩
  cases event with
  | request => exact Or.inr (hstays (.refl _))
  | now => exact Or.inr (hstays (syncNow_stays s))
  | flush => exact Or.inr (hstays (flush_stays s))
  | tick => exact Or.inr (hstays (tick_stays s))
  | cancel => exact Or.inr (hstays (.refl _))
  | effect e => exact s.stack.ids_apply e
  | surface => exact Or.inr (hstays (.refl _))

theorem nextId_le_respond (s : Scene σ) (event : Event σ) :
    s.stack.nextId ≤ (s.respond event).2.stack.nextId := by
  rcases s.ids_respond event with ⟨_, hnext⟩ | ⟨_, hnext⟩
  · omega
  · omega

/-- A session that was open before and is open now was not closed in between. -/
theorem mem_ids_of_respond {id : Nat} (old : id < s.stack.nextId)
    (h : id ∈ (s.respond event).2.stack.ids) : id ∈ s.stack.ids := by
  rcases s.ids_respond event with ⟨hids, _⟩ | ⟨hids, _⟩
  · rw [hids] at h
    rcases List.mem_cons.mp h with rfl | h
    · exact absurd old (Nat.lt_irrefl _)
    · exact h
  · exact hids.subset h

theorem ids_lt_respond (old : ∀ id ∈ s.stack.ids, id < s.stack.nextId) (event : Event σ) :
    ∀ id ∈ (s.respond event).2.stack.ids, id < (s.respond event).2.stack.nextId := by
  intro id hid
  rcases s.ids_respond event with ⟨hids, hnext⟩ | ⟨hids, hnext⟩
  · rw [hids] at hid
    rw [hnext]
    rcases List.mem_cons.mp hid with rfl | hid
    · exact Nat.lt_succ_self _
    · exact Nat.lt_succ_of_lt (old id hid)
  · rw [hnext]
    exact old id (hids.subset hid)

end Scene

/-! ## One entry more -/

section

variable {σ : Type} {log : List (Entry σ)} {e : Entry σ}

/-- A place in a log that grew is the new entry, or it was there before. -/
theorem split_snoc {earlier later : List (Entry σ)} {a : Entry σ}
    (h : log ++ [e] = earlier ++ a :: later) :
    (earlier = log ∧ a = e) ∨ ∃ rest, log = earlier ++ a :: rest := by
  rcases List.eq_nil_or_concat later with rfl | ⟨rest, last, rfl⟩
  · obtain ⟨hlog, hlast⟩ := List.append_inj' h rfl
    cases hlast
    exact Or.inl ⟨hlog.symm, rfl⟩
  · rw [List.concat_eq_append, ← List.cons_append, ← List.append_assoc] at h
    exact Or.inr ⟨rest, (List.append_inj' h rfl).1⟩

theorem filterMap_snoc (f : Entry σ → Option Nat) :
    (log ++ [e]).filterMap f = log.filterMap f ++ (f e).toList := by
  rw [List.filterMap_append]
  cases hf : f e with
  | none => rw [List.filterMap_cons_none hf, List.filterMap_nil, Option.toList]
  | some op => rw [List.filterMap_cons_some hf, List.filterMap_nil, Option.toList]

theorem le_snoc {f : Entry σ → Option Nat} {bound bound' : Nat}
    (h : ∀ op ∈ log.filterMap f, op ≤ bound) (rises : bound ≤ bound')
    (below : ∀ op, f e = some op → op ≤ bound') : ∀ op ∈ (log ++ [e]).filterMap f, op ≤ bound' := by
  intro op hop
  rw [filterMap_snoc] at hop
  rcases List.mem_append.mp hop with hold | hnew
  · exact Nat.le_trans (h op hold) rises
  · exact below op (Option.mem_toList.mp hnew)

theorem ascending_snoc {f : Entry σ → Option Nat}
    (h : (log.filterMap f).Pairwise (· < ·))
    (above : ∀ op, f e = some op → ∀ id ∈ log.filterMap f, id < op) :
    ((log ++ [e]).filterMap f).Pairwise (· < ·) := by
  rw [filterMap_snoc]
  refine List.pairwise_append.mpr ⟨h, ?_, fun id hid op hop => ?_⟩
  · cases f e with
    | none => exact .nil
    | some op => exact List.pairwise_singleton _ _
  · exact above op (Option.mem_toList.mp hop) id hid

theorem oneShot_nil : OneShot ([] : List (Entry σ)) where
  issued_ascending := .nil
  issued_singly e he := absurd he List.not_mem_nil
  scheduled_fresh e he := absurd he List.not_mem_nil
  applied_ascending := .nil
  applied_issued earlier e later h := absurd h (by simp)
  refused e he := absurd he List.not_mem_nil
  awaited earlier e later h := absurd h (by simp)

theorem OneShot.snoc (h : OneShot log)
    (issued : ∀ op, e.issued? = some op → ∀ id ∈ log.filterMap Entry.issued?, id < op)
    (singly : e.after.guard.latest ≤ e.before.guard.latest + 1)
    (fresh : ∀ op, e.outcome = some (.scheduled op) → e.issued? = some op)
    (applied : ∀ op, e.applied? = some op → (∀ id ∈ log.filterMap Entry.applied?, id < op) ∧
      op ∈ (log ++ [e]).filterMap Entry.issued?)
    (refused : e.before.guard.inFlight → e.event = .request ∨ e.event = .now →
      e.outcome = some (.skipped .inFlight) ∧ e.after = e.before)
    (awaited : e.event = .tick → ∀ op, e.applied? = some op →
      ∃ session, e.before.stack.topId? = some session ∧ Awaits log op session e.before) :
    OneShot (log ++ [e]) where
  issued_ascending := ascending_snoc h.issued_ascending issued
  issued_singly a ha := by
    rcases List.mem_append.mp ha with ha | ha
    · exact h.issued_singly a ha
    · exact List.mem_singleton.mp ha ▸ singly
  scheduled_fresh a ha := by
    rcases List.mem_append.mp ha with ha | ha
    · exact h.scheduled_fresh a ha
    · exact List.mem_singleton.mp ha ▸ fresh
  applied_ascending := ascending_snoc h.applied_ascending fun op hop => (applied op hop).1
  applied_issued earlier a later hsplit := by
    rcases split_snoc hsplit with ⟨rfl, rfl⟩ | ⟨rest, hlog⟩
    · exact fun op hop => (applied op hop).2
    · exact h.applied_issued earlier a rest hlog
  refused a ha := by
    rcases List.mem_append.mp ha with ha | ha
    · exact h.refused a ha
    · exact List.mem_singleton.mp ha ▸ refused
  awaited earlier a later hsplit := by
    rcases split_snoc hsplit with ⟨rfl, rfl⟩ | ⟨rest, hlog⟩
    · exact awaited
    · exact h.awaited earlier a rest hlog

theorem applied?_eq_some {e : Entry σ} {op : Nat} :
    e.applied? = some op ↔ ∃ count, e.outcome = some (.applied op count) := by
  unfold Entry.applied?
  constructor
  · intro h
    split at h
    · rename_i count ho
      cases h
      exact ⟨count, ho⟩
    · cases h
  · rintro ⟨count, ho⟩
    rw [ho]

theorem Scene.Silent.applied?_eq_none (h : Silent e.outcome) : e.applied? = none := by
  refine Option.eq_none_iff_forall_ne_some.mpr fun op hop => ?_
  obtain ⟨count, ho⟩ := applied?_eq_some.mp hop
  cases (h.not_reported ho).choose_spec

structure Waiting (log : List (Entry σ)) (op session : Nat) (now : Scene σ) : Prop where
  issued : op ∈ log.filterMap Entry.issued?
  latest : op = now.guard.latest
  unapplied : ∀ id ∈ log.filterMap Entry.applied?, id < op
  opened : session < now.stack.nextId
  awaits : Awaits log op session now

structure Tracked (log : List (Entry σ)) (now : Scene σ) : Prop where
  oneShot : OneShot log
  sessions : ∀ id ∈ now.stack.ids, id < now.stack.nextId
  issued : ∀ op ∈ log.filterMap Entry.issued?, op ≤ now.guard.latest
  applied : ∀ op ∈ log.filterMap Entry.applied?, op ≤ now.guard.latest
  waiting : ∀ op session, now.guard.phase = .scheduled op session → Waiting log op session now

theorem tracked_start (surface : σ) : Tracked [] (Scene.start surface) where
  oneShot := oneShot_nil
  sessions id hid := absurd hid List.not_mem_nil
  issued op hop := absurd hop List.not_mem_nil
  applied op hop := absurd hop List.not_mem_nil
  waiting op session hwaiting := by cases hwaiting

end

section

variable {σ : Type} [Surface σ] {log : List (Entry σ)} {now : Scene σ}

open Scene

theorem Tracked.issued_above (h : Tracked log now) (event : Event σ) {op : Nat}
    (hop : (now.entry event).issued? = some op) :
    op = (now.respond event).2.guard.latest ∧ ∀ id ∈ log.filterMap Entry.issued?, id < op := by
  unfold Entry.issued? at hop
  split at hop
  · cases hop
  · rename_i hgiven
    cases hop
    refine ⟨rfl, fun id hid => ?_⟩
    have hle := h.issued id hid
    have hlatest := (advances now event).latest
    simp only [entry] at hgiven ⊢
    omega

theorem entry_issued (s : Scene σ) (event : Event σ)
    (given : (s.respond event).2.guard.latest = s.guard.latest + 1) :
    (s.entry event).issued? = some (s.guard.latest + 1) := by
  unfold Entry.issued? entry
  dsimp only
  rw [given, if_neg (by omega)]

theorem Tracked.applied_above (h : Tracked log now) (event : Event σ) {op : Nat}
    (hop : (now.entry event).applied? = some op) :
    op = (now.respond event).2.guard.latest ∧ (∀ id ∈ log.filterMap Entry.applied?, id < op) ∧
      op ∈ (log ++ [now.entry event]).filterMap Entry.issued? := by
  obtain ⟨count, ho⟩ := applied?_eq_some.mp hop
  obtain ⟨hlatest, hnew | hwaiting⟩ := (advances now event).applied_cases ho
  · refine ⟨hlatest.symm, fun id hid => ?_, ?_⟩
    · have := h.applied id hid
      omega
    · rw [filterMap_snoc, entry_issued now event (hlatest.trans hnew.2), ← hnew.2]
      exact List.mem_append_right _ List.mem_cons_self
  · obtain ⟨_, session, hphase, _⟩ := hwaiting
    have hwaits := h.waiting op session hphase
    refine ⟨hlatest.symm, hwaits.unapplied, ?_⟩
    rw [filterMap_snoc]
    exact List.mem_append_left _ hwaits.issued

theorem Tracked.oneShot_snoc (h : Tracked log now) (event : Event σ) :
    OneShot (log ++ [now.entry event]) := by
  have hadvances := advances now event
  refine h.oneShot.snoc (fun op hop => (h.issued_above event hop).2) ?_ ?_
    (fun op hop => (h.applied_above event hop).2) ?_ ?_
  · have := hadvances.latest
    simp only [entry]
    omega
  · intro op ho
    obtain ⟨hop, hlatest⟩ := hadvances.scheduled_fresh ho
    rw [entry_issued now event (hlatest.trans hop), hop]
  · intro hflight hevent
    have hsame := respond_of_inFlight hflight hevent
    simp only [entry] at hsame ⊢
    rw [hsame]
    exact ⟨rfl, rfl⟩
  · intro htick op hop
    obtain ⟨count, ho⟩ := applied?_eq_some.mp hop
    obtain ⟨_, hnew | ⟨_, session, hphase, htop⟩⟩ := hadvances.applied_cases ho
    · exact absurd htick hnew.1
    · exact ⟨session, htop, (h.waiting op session hphase).awaits⟩

/-- What waits goes on waiting across an event that passes it. -/
theorem Awaits.passed {op session : Nat} (h : Awaits log op session now)
    (old : session < now.stack.nextId) {event : Event σ} (passes : (now.entry event).Passes) :
    Awaits (log ++ [now.entry event]) op session (now.respond event).2 := by
  obtain ⟨earlier, request, since, rfl, hevent, hscheduled, htop, hsince⟩ := h
  refine ⟨earlier, request, since ++ [now.entry event], by simp, hevent, hscheduled, htop, ?_⟩
  intro e he
  rcases List.mem_append.mp he with he | he
  · obtain ⟨hpasses, hopen⟩ := hsince e he
    exact ⟨hpasses, fun hnow => hopen (mem_ids_of_respond old hnow)⟩
  · cases List.mem_singleton.mp he
    exact ⟨passes, fun hnow => ⟨mem_ids_of_respond old hnow, hnow⟩⟩

theorem Waiting.passed {op session : Nat} (h : Waiting log op session now) {event : Event σ}
    (guard : (now.respond event).2.guard = now.guard) (silent : Silent (now.respond event).1)
    (passes : (now.entry event).Passes) :
    Waiting (log ++ [now.entry event]) op session (now.respond event).2 where
  issued := by
    rw [filterMap_snoc]
    exact List.mem_append_left _ h.issued
  latest := guard ▸ h.latest
  unapplied := by
    rw [filterMap_snoc, silent.applied?_eq_none, Option.toList, List.append_nil]
    exact h.unapplied
  opened := Nat.lt_of_lt_of_le h.opened (now.nextId_le_respond event)
  awaits := h.awaits.passed h.opened passes

/-- A request that is accepted makes its operation wait, for the session on top. -/
theorem Tracked.waiting_request (h : Tracked log now) {op session : Nat}
    (scheduled : (now.respond .request).1 = some (.scheduled op))
    (top : now.stack.topId? = some session) :
    Waiting (log ++ [now.entry .request]) op session (now.respond .request).2 := by
  obtain ⟨hop, hlatest⟩ := (advances now .request).scheduled_fresh scheduled
  have hunapplied : (now.entry .request).applied? = none := by
    rw [Entry.applied?, entry, scheduled]
  constructor
  · rw [filterMap_snoc, entry_issued now .request (hlatest.trans hop), ← hop]
    exact List.mem_append_right _ List.mem_cons_self
  · exact hlatest.symm
  · intro id hid
    rw [filterMap_snoc, hunapplied, Option.toList, List.append_nil] at hid
    have := h.applied id hid
    omega
  · exact Nat.lt_of_lt_of_le (h.sessions session (Stack.topId?_mem top))
      (now.nextId_le_respond .request)
  · exact ⟨log, now.entry .request, [], rfl, rfl, scheduled, top,
      fun e he => absurd he List.not_mem_nil⟩

theorem Tracked.waiting_snoc (h : Tracked log now) (event : Event σ) {op session : Nat}
    (waiting : (now.respond event).2.guard.phase = .scheduled op session) :
    Waiting (log ++ [now.entry event]) op session (now.respond event).2 := by
  rcases (advances now event).waiting_cases waiting with
    ⟨hphase, hguard, hsilent, hpasses⟩ | ⟨rfl, hscheduled, htop⟩
  · exact (h.waiting op session hphase).passed hguard hsilent hpasses
  · exact h.waiting_request hscheduled htop

theorem Tracked.respond (h : Tracked log now) (event : Event σ) :
    Tracked (log ++ [now.entry event]) (now.respond event).2 := by
  have hrises : now.guard.latest ≤ (now.respond event).2.guard.latest := by
    have := (advances now event).latest
    omega
  exact {
    oneShot := h.oneShot_snoc event
    sessions := ids_lt_respond h.sessions event
    issued := le_snoc h.issued hrises fun _ hop => Nat.le_of_eq (h.issued_above event hop).1
    applied := le_snoc h.applied hrises fun _ hop => Nat.le_of_eq (h.applied_above event hop).1
    waiting := fun _ _ hwaiting => h.waiting_snoc event hwaiting }

theorem Tracked.oneShot_log (h : Tracked log now) (events : List (Event σ)) :
    OneShot (log ++ now.log events) := by
  induction events generalizing log now with
  | nil =>
    rw [Scene.log, List.append_nil]
    exact h.oneShot
  | cons event rest ih =>
    have hrest := ih (h.respond event)
    rw [List.append_assoc] at hrest
    exact hrest

/-- In every run from a fresh guard the ids of operations grow, each operation is applied at most
once, requests and syncs that come while one is in flight change nothing, and a tick runs only what
was asked for last, for the session that is still on top. -/
theorem log_oneShot (surface : σ) (events : List (Event σ)) :
    OneShot ((Scene.start surface).log events) :=
  (tracked_start surface).oneShot_log events

end

end Snippets
