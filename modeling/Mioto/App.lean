import Mioto.Messages
import Mioto.Screens

/-! The app as a machine: the two services, the screens over them, and who listens.
Users touch any screen of the hierarchy, screens are released some time after
they left it, and whatever the services report reaches the current listener. -/

namespace Mioto

/-- A weak listener reads as nil once its screen is released. `used` are the
addresses that screens have had, `raised` an exception in a screen. -/
structure App where
  service : Service
  fireBaseListener : Option ScreenId
  authListener : Option ScreenId
  screens : ScreenId → Option Screen
  stack : List ScreenId
  presented : Option ScreenId
  timers : List ScreenId
  used : List ScreenId
  raised : Option Exn

inductive Output
  | service (m : ServiceMove)
  | delivered (i : ScreenId) (m : Message)
  | unrecognized (i : ScreenId) (m : Message)
  | loaded (i : ScreenId) (k : Kind)
  | listensFireBase (i : ScreenId)
  | listensAuth (i : ScreenId)
  | beginIgnoring (i : ScreenId)
  | endIgnoring (i : ScreenId)
  | alert (text : String)
  | log (format text : String)

abbrev Outcome := App × List Output

inductive Act
  | launch
  | touch (i : ScreenId) (t : Touch)
  | pop
  | release (i : ScreenId)
  | timer (i : ScreenId)
  | answer (k : Nat) (r : Reply)
  | complete (k : Nat)
  | dialog (k : Nat) (result : DialogResult)
  | childAdded (child : Uid)
  | remoteRecord (uid : Uid) (d : Dict)
  | remoteField (uid : Uid) (k : Key) (v : Option String)

/-- An act with the addresses of the screens it may make and the date string at
that moment. No act makes more than two screens. -/
structure Event where
  act : Act
  fresh : ScreenId
  fresh' : ScreenId
  stringTime : String

def Output.messages : Output → List Message
  | .service m => m.out.filterMap Effect.message
  | _ => []

namespace App

def crashed (s : App) : Bool := s.raised.isSome || s.service.raised.isSome

def andThen (r : Outcome) (f : App → Outcome) : Outcome := Sequence.andThen crashed r f

def runAll {α : Type} (f : App → α → Outcome) (s : App) (l : List α) : Outcome :=
  Sequence.runAll crashed f s l

def serve (s : App) (e : ServiceEvent) : Outcome :=
  match s.service.step e with
  | none => (s, [])
  | some r => ({ s with service := r.1 }, [.service ⟨s.service, e, r.1, r.2⟩])

def appear (s : App) (k : Kind) (j : ScreenId) : Outcome :=
  ({ s with screens := Function.update s.screens j (some (k.loaded s.service.newUser)) },
    [.loaded j k])

/-- Screen `i` runs a command. A pushed screen takes its address from `fresh` and
loads its view; a view controller outside a navigation controller pushes nothing. -/
def perform (t : String) (fresh : List ScreenId) (i : ScreenId) (s : App) (c : Command) :
    Outcome :=
  match c with
  | .become sc => ({ s with screens := Function.update s.screens i (some sc) }, [])
  | .listenFireBase => ({ s with fireBaseListener := some i }, [.listensFireBase i])
  | .listenAuth => ({ s with authListener := some i }, [.listensAuth i])
  | .call c => s.serve (.call i t c)
  | .push k =>
    match fresh with
    | [] => (s, [])
    | j :: fresh =>
      if i ∈ s.stack then
        andThen ({ s with stack := j :: s.stack }.appear k j)
          fun s' => runAll (perform t fresh j) s' (k.viewDidLoad s.service.didLogin)
      else (s, [])
  | .pop =>
    match s.stack with
    | _ :: j :: stack => if i ∈ s.stack then ({ s with stack := j :: stack }, []) else (s, [])
    | _ => (s, [])
  | .presentForgotPassword =>
    match fresh with
    | [] => (s, [])
    | j :: fresh =>
      if s.presented = none ∧ s.stack.head? = some i then
        andThen ({ s with presented := some j }.appear .forgotPassword j)
          fun s' => runAll (perform t fresh j) s'
            (Kind.viewDidLoad s.service.didLogin .forgotPassword)
      else (s, [])
  | .dismiss => if s.presented = some i then ({ s with presented := none }, []) else (s, [])
  | .dispatchAfter => ({ s with timers := s.timers ++ [i] }, [])
  | .beginIgnoring => (s, [.beginIgnoring i])
  | .endIgnoring => (s, [.endIgnoring i])
  | .alert text => (s, [.alert text])
  | .log format text => (s, [.log format text])
  | .raise x => ({ s with raised := some x }, [])

def listener (s : App) : Message → Option ScreenId
  | .authStatus _ => s.authListener
  | _ => s.fireBaseListener

def listening (s : App) (m : Message) : Option (ScreenId × Screen) :=
  (s.listener m).bind fun i => (s.screens i).map fun sc => (i, sc)

def deliver (t : String) (fresh : List ScreenId) (s : App) (m : Message) : Outcome :=
  match s.listening m with
  | none => (s, [])
  | some (i, sc) =>
    match sc.receive s.service.newUser m with
    | none =>
      ({ s with raised := some .unrecognizedSelector }, [.delivered i m, .unrecognized i m])
    | some cs =>
      let r := runAll (perform t fresh i) s cs
      (r.1, .delivered i m :: r.2)

/-- Delivers what the services sent; a method sends last, so nothing is reordered. -/
def settle (t : String) (fresh : List ScreenId) (r : Outcome) : Outcome :=
  andThen r fun s => runAll (deliver t fresh) s (r.2.flatMap Output.messages)

/-- Tells the observer at position `o` of a child, unless it has had it. -/
def tell (t : String) (fresh : List ScreenId) (child : Uid) (s : App) (o : Nat) : Outcome :=
  settle t fresh (s.serve (.childAdded o child))

/-- One child-added event goes to all observers, in the order of their registration. -/
def childAdded (t : String) (fresh : List ScreenId) (s : App) (child : Uid) : Outcome :=
  runAll (tell t fresh child) s (List.range s.service.observers.length)

def inHierarchy (s : App) (i : ScreenId) : Bool := i ∈ s.stack ∨ s.presented = some i

/-- What the event does, once its addresses are known to be new. -/
def act (t : String) (fresh : List ScreenId) (s : App) : Act → Option Outcome
  | .launch =>
    match s.stack, fresh with
    | [], j :: fresh =>
      some (andThen ({ s with stack := [j] }.appear .menu j)
        fun s' => runAll (perform t fresh j) s' (Kind.viewDidLoad s.service.didLogin .menu))
    | _, _ => none
  | .touch i touch =>
    if s.inHierarchy i then
      ((s.screens i).bind (·.touched touch)).map fun cs =>
        settle t fresh (runAll (perform t fresh i) s cs)
    else none
  | .pop =>
    match s.stack with
    | _ :: j :: stack => some ({ s with stack := j :: stack }, [])
    | _ => none
  | .release i =>
    if (s.screens i).isSome ∧ ¬ s.inHierarchy i ∧ i ∉ s.timers then
      some ({ s with screens := Function.update s.screens i none }, [])
    else none
  | .timer i =>
    if i ∈ s.timers then
      (s.screens i).map fun sc =>
        runAll (perform t fresh i) { s with timers := s.timers.erase i } sc.kind.deferred
    else none
  | .answer k r =>
    if (s.service.step (.answer k r)).isSome then some (s.serve (.answer k r)) else none
  | .complete k =>
    if (s.service.step (.complete k t)).isSome then
      some (settle t fresh (s.serve (.complete k t)))
    else none
  | .dialog k result =>
    if (s.service.step (.dialog k result)).isSome then
      some (settle t fresh (s.serve (.dialog k result)))
    else none
  | .childAdded child => some (s.childAdded t fresh child)
  | .remoteRecord uid d => some (s.serve (.remoteRecord uid d))
  | .remoteField uid k v => some (s.serve (.remoteField uid k v))

def supplies (s : App) (e : Event) : Bool :=
  e.fresh ∉ s.used ∧ e.fresh' ∉ s.used ∧ e.fresh ≠ e.fresh'

def reserve (s : App) (e : Event) : App := { s with used := e.fresh :: e.fresh' :: s.used }

def step (s : App) (e : Event) : Option Outcome :=
  if s.crashed ∨ ¬ s.supplies e then none
  else (s.reserve e).act e.stringTime [e.fresh, e.fresh'] e.act

def machine : Machine App Event Output := ⟨step⟩

structure Launch (s : App) : Prop where
  service : Service.Launch s.service
  fireBaseListener : s.fireBaseListener = none
  authListener : s.authListener = none
  screens : ∀ i, s.screens i = none
  stack : s.stack = []
  presented : s.presented = none
  timers : s.timers = []
  raised : s.raised = none

def start (service : Service) : App where
  service := service
  fireBaseListener := none
  authListener := none
  screens _ := none
  stack := []
  presented := none
  timers := []
  used := []
  raised := none

theorem start_launch (currentUser : Option Uid) (ids : List Uid) :
    Launch (start (Service.launch currentUser ids)) :=
  ⟨Service.launch_launch currentUser ids, rfl, rfl, fun _ => rfl, rfl, rfl, rfl, rfl⟩

def script : Nat → List Act → List Event
  | _, [] => []
  | n, a :: as => ⟨a, 2 * n, 2 * n + 1, "today"⟩ :: script (n + 1) as

end App

abbrev AppMove := Move App Event Output

abbrev AppHistory := List AppMove

def deliveries (o : List Output) : List (ScreenId × Message) :=
  o.filterMap fun
    | .delivered i m => some (i, m)
    | _ => none

def serviceMoves (o : List Output) : List ServiceMove :=
  o.filterMap fun
    | .service m => some m
    | _ => none

def effects (o : List Output) : List Effect := (serviceMoves o).flatMap (·.out)

end Mioto
