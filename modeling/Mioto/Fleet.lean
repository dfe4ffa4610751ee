import Mioto.UpdateFrame

/-! Many devices over one database. Each device runs the services for whoever is signed in
there, and writes to the record of that user. -/

namespace Mioto

namespace Service

/-! ### What one step does to the database -/

/-- A step writes nothing, a whole record, or one field, always of the signed-in user. -/
inductive Writes (s : Service) (e : ServiceEvent) : (Uid → Node) → Prop
  | nothing (h : s.currentUser = none ∨ s.writes e = none) : Writes s e s.users
  | record {u : Uid} {d : Dict} (hw : s.writes e = none) (hd : Complete d)
      (hu : d .mUserID = some u) : Writes s e (Function.update s.users u (.dict d))
  | field {u : Uid} {k : Key} {v : String} (hu : s.currentUser = some u)
      (hw : s.writes e = some (k, some v)) (hk : k ≠ .mUserID) :
      Writes s e (Function.update s.users u ((s.users u).setField k (some v)))

theorem Called.writes {s : Service} {i : ScreenId} {t : String} {c : Call} {r : Done}
    (h : Called s i t c r) : Writes s (.call i t c) r.1.users := by
  cases h with
  | saved hu hc | updated hu hc =>
    simp only [setRecord, Node.ofDict_of_isSome (hc .mUserID)]
    exact .record rfl hc rfl
  | _ => exact .nothing (.inr rfl)

theorem Completed.writes {s : Service} {k : Nat} {t : String} {w : Waiting} {r : Done}
    (hw : s.replies[k]? = some w)
    (h : Completed { s with replies := s.replies.eraseIdx k } t w.caller w.reply r) :
    Writes s (.complete k t) r.1.users := by
  have hwrites : s.writes (.complete k t) = w.reply.writtenField := by
    simp [Service.writes, hw]
  generalize w.reply = q at h hwrites
  cases h with
  | imageSaved hu | fbLinked hu | ggLinked hu => exact .field hu hwrites (by decide)
  | imageUnsaved hu | fbUnlinked hu | ggUnlinked hu => exact .nothing (.inl hu)
  | @registered user uid d hu hd hc =>
    have hfull : Complete d := by
      rw [hd]
      exact isSome_savedRecord_iff.mpr (by simp [hc])
    simp only [setRecord, Node.ofDict_of_isSome (hfull .mUserID)]
    exact .record hwrites hfull (by rw [hd]; rfl)
  | _ => exact .nothing (.inr hwrites)

theorem Closed.users {s : Service} {i : ScreenId} {p : Request} {q : DialogResult} {r : Done}
    (h : Closed s i p q r) : r.1.users = s.users := by
  cases h <;> rfl

theorem ChildTold.users {s : Service} {ob : Observer} {n : Node} {r : Done}
    (h : ChildTold s ob n r) : r.1.users = s.users := by
  cases h <;> rfl

end Service

def ServiceEvent.isRemote : ServiceEvent → Bool
  | .remoteRecord _ _ | .remoteField _ _ _ => true
  | _ => false

namespace Service

theorem step_writes {s : Service} {e : ServiceEvent} {r : Done} (h : s.step e = some r)
    (he : e.isRemote = false) : Writes s e r.1.users := by
  cases (stepped h).2 with
  | called hc => exact hc.writes
  | completed hw hc => exact hc.writes hw
  | closed _ hc =>
    rw [hc.users]
    exact .nothing (.inr rfl)
  | told _ _ _ hc =>
    rw [hc.users]
    exact .nothing (.inr rfl)
  | answered | refused => exact .nothing (.inr rfl)
  | remoteRecord | remoteField => cases he

end Service

/-! ### The devices -/

/-- The database, and what each device keeps. What a device's own `users` holds is
what the database held at its last step. -/
structure Fleet (δ : Type) where
  users : Uid → Node
  devices : δ → Service

/-- A step of the services on a device, or its app killed and started again. -/
inductive FleetEvent (δ : Type)
  | run (d : δ) (e : ServiceEvent)
  | relaunch (d : δ)

/-- The step of the services that an event consists of, and the device. -/
def FleetEvent.serviceStep {δ : Type} : FleetEvent δ → Option (δ × ServiceEvent)
  | .run d e => some (d, e)
  | .relaunch _ => none

namespace Fleet

variable {δ : Type}

def sees (f : Fleet δ) (d : δ) : Service := { f.devices d with users := f.users }

/-- The sign-in and the Facebook token are persisted. -/
def restarted (s : Service) : Service where
  users := s.users
  currentUser := s.currentUser
  currentAccessToken := s.currentAccessToken
  pending := []
  replies := []
  observers := []
  newUser := none
  mDownloadedURL := none
  raised := none

/-- Fresh processes over an empty database. -/
structure Launch (f : Fleet δ) : Prop where
  users : ∀ u, f.users u = .null
  devices : ∀ d, Service.Launch (f.devices d)

def start (currentUser : δ → Option Uid) : Fleet δ where
  users _ := .null
  devices d := Service.launch (currentUser d) []

theorem start_launch (currentUser : δ → Option Uid) : Launch (start currentUser) :=
  ⟨fun _ => rfl, fun d => Service.launch_launch (currentUser d) []⟩

variable [DecidableEq δ]

def step (f : Fleet δ) : FleetEvent δ → Option (Fleet δ × List Effect)
  | .run d e =>
    if e.isRemote then none
    else ((f.sees d).step e).map fun r =>
      ({ users := r.1.users, devices := Function.update f.devices d r.1 }, r.2)
  | .relaunch d =>
    some ({ f with devices := Function.update f.devices d (restarted (f.devices d)) }, [])

def machine : Machine (Fleet δ) (FleetEvent δ) Effect := ⟨step⟩

end Fleet

end Mioto
