import Snippets.Scene.Syncing
import Snippets.Settings

/-!
# Navigation

Moving between the stops of the innermost session, cycling choices and leaving. A session that is
done is closed and navigation goes on in the session around it.
-/

namespace Snippets

inductive NavigationReason where
  | noActiveSession
  | noMoreStops
  | noPreviousStop
  | noChoices
  | surfaceUnavailable
  deriving DecidableEq, Repr

inductive Navigation where
  /-- A stop with this index is selected now. -/
  | moved (index : Nat)
  /-- The session ended, and perhaps sessions around it. -/
  | exited
  | unavailable (reason : NavigationReason)
  deriving DecidableEq, Repr

def Navigation.succeeded : Navigation → Bool
  | unavailable _ => false
  | _ => true

namespace Session

/-- Where the next jump goes: the following index, else the exit. From the exit there is no way
on. -/
def next? (s : Session) : Option Nat :=
  if s.current = 0 then none
  else if s.hasIndex (s.current + 1) then some (s.current + 1)
  else if s.hasIndex 0 then some 0
  else none

/-- Where the previous jump goes: the index before the current one, never the exit. -/
def previous? (s : Session) : Option Nat :=
  if 1 < s.current ∧ s.hasIndex (s.current - 1) then some (s.current - 1) else none

end Session

namespace Scene

variable {σ : Type} [Surface σ]

def flushReference (s : Scene σ) : Scene σ :=
  if s.currentStop?.any (·.isReference) then s.flush.2 else s

inductive Jump where
  | landed (index : Nat)
  | closed (result : Navigation)
  deriving DecidableEq, Repr

def atExit (s : Scene σ) : Bool :=
  let exit := ((s.stack.top?.bind (·.firstStop? 0)).map (·.span)).getD ⟨0, 0⟩
  (Surface.selection s.surface).Covers exit

def jumpFrom (s : Scene σ) (top : Session) : Jump × Scene σ :=
  match top.next? with
  | some 0 =>
    let s := s.flushReference
    if s.atExit then (.closed .exited, s.effect .pop) else (.landed 0, s.visit 0)
  | some index => (.landed index, s.flushReference.visit index)
  | none =>
    if top.current = 0 then (.closed .exited, s.effect .pop)
    else (.closed (.unavailable .noMoreStops), s.flushReference.effect .pop)

/-- Jumps until a stop is selected or all sessions are closed, one session a round. The result of
the last round counts. -/
def jumpRounds : Nat → Navigation → Scene σ → Navigation × Scene σ
  | 0, result, s => (result, s)
  | rounds + 1, result, s =>
    match s.stack.top? with
    | none => (result, s)
    | some top =>
      match s.jumpFrom top with
      | (.landed index, s) => (.moved index, s)
      | (.closed result, s) => jumpRounds rounds result s

def jumpNext (s : Scene σ) : Navigation × Scene σ :=
  if s.isActive then jumpRounds s.stack.depth .exited s else (.unavailable .noActiveSession, s)

def jumpPrevious (s : Scene σ) : Navigation × Scene σ :=
  match s.stack.top? with
  | none => (.unavailable .noActiveSession, s)
  | some top =>
    match top.previous? with
    | none => (.unavailable .noPreviousStop, s)
    | some index => (.moved index, s.flushReference.visit index)

/-- The choice after the one that a stop shows. A stop that shows none of them gets the first. -/
def nextChoice (choices : List Text) (shown : Text) : Text :=
  let next := match choices.idxOf? shown with
    | none => 0
    | some i => (i + 1) % choices.length
  choices[next]?.getD []

def stretchFirst (index start finish : Nat) : List LiveStop → List LiveStop
  | [] => []
  | s :: rest =>
    if s.index = index ∧ s.span.start = start then { s with span := ⟨start, finish⟩ } :: rest
    else s :: stretchFirst index start finish rest

def cycleChoice (settings : Settings) (s : Scene σ) : Navigation × Scene σ :=
  match s.stack.top? with
  | none => (.unavailable .noActiveSession, s)
  | some top =>
    match top.currentStop? (Surface.selection s.surface) with
    | none => (.unavailable .noChoices, s)
    | some stop =>
      let choices := stop.choices.getD []
      if choices.isEmpty then (.unavailable .noChoices, s)
      else
        let choice := nextChoice choices (Surface.slice s.surface stop.span)
        match Surface.apply s.surface ⟨[⟨stop.span, choice⟩], .choice⟩ with
        | (.error _, surface) => (.unavailable .surfaceUnavailable, { s with surface })
        | (.ok change, surface) =>
          let s := { s with surface }.remap change
          let chosen : Span := ⟨stop.span.start, stop.span.start + choice.length⟩
          let s := match s.stack.sessions with
            | [] => s
            | top :: outer =>
              s.effect (.replace outer.length
                (stretchFirst stop.index chosen.start chosen.finish top.stops))
          let s := { s with surface := Surface.select s.surface (.ofSpan chosen) }
          let wanted := stop.isReference && settings.syncMode == .realtime
          (.moved stop.index, if wanted then s.requestSync.2 else s)

def forceExit (s : Scene σ) : Navigation × Scene σ :=
  (if s.isActive then .exited else .unavailable .noActiveSession, (s.effect .clear).cancelSync)

/-- Takes note of a change that the surface made. A change of the user's moves all sessions and, in
realtime mode, asks for a sync when the user is inside a stop that has copies. -/
def observe (settings : Settings) (s : Scene σ) (c : Change) : Option Sync.Outcome × Scene σ :=
  if !s.isActive || c.edits.isEmpty || c.origin.isEngine then (none, s)
  else
    let s := s.remap c
    if settings.syncMode != .realtime then (none, s)
    else match s.currentStop? with
      | none => (none, s)
      | some stop =>
        if stop.isReference && decide ((Surface.selection s.surface).Within stop.span) then
          let (outcome, s) := s.requestSync
          (some outcome, s)
        else (none, s)

end Scene

end Snippets
