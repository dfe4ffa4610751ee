import Mioto.Registers
import Mioto.Simulation
import Mioto.StoredRecords

/-! What a device of a fleet sees, and what the database of a fleet is: an array of registers,
ten for each uid, that only the devices signed in under that uid write to. -/

namespace Mioto

/-- The value that an effect gives to a field of the database. -/
def Effect.stores : Effect → Uid × Key → Option (Option String)
  | .setRecord u d, i => if i.1 = u then some (d i.2) else none
  | .setField u k v, i => if i.1 = u ∧ i.2 = k then some v else none
  | _, _ => none

namespace Service

def registers (s : Service) (i : Uid × Key) : Option String := (s.users i.1).field i.2

/-- `r` has put out what it wrote, and it wrote for the user who is signed in. -/
structure Stores (s : Service) (r : Done) : Prop where
  registers : r.1.registers = Machine.replay Effect.stores s.registers r.2
  own : ∀ b ∈ r.2, ∀ i, b.stores i ≠ none → s.currentUser = some i.1

theorem Stores.of_same {s s' : Service} {r : Done} (h : Stores s' r) (hu : s'.users = s.users)
    (hc : s'.currentUser = s.currentUser) : Stores s r where
  registers := by
    rw [h.registers]
    unfold Service.registers
    rw [hu]
  own b hb i hi := hc ▸ h.own b hb i hi

theorem replay_silent {o : List Effect} (ho : ∀ b ∈ o, b.stores = fun _ => none)
    (mem : Uid × Key → Option String) : Machine.replay Effect.stores mem o = mem := by
  induction o generalizing mem with
  | nil => rfl
  | cons b o ih =>
    obtain ⟨hb, ho⟩ := List.forall_mem_cons.mp ho
    rw [Machine.replay, hb]
    exact ih ho mem

theorem stores_silent {s : Service} {r : Done} (hu : r.1.users = s.users)
    (ho : ∀ b ∈ r.2, b.stores = fun _ => none) : Stores s r where
  registers := by
    rw [replay_silent ho]
    unfold Service.registers
    rw [hu]
  own b hb i hi := absurd (congrFun (ho b hb) i) hi

theorem stores_raise (s : Service) (x : Exn) : Stores s (s.raise x) :=
  stores_silent rfl (by simp [raise]; rfl)

theorem stores_send (s : Service) (m : Message) : Stores s (s.send m) :=
  stores_silent rfl (by simp [send]; rfl)

theorem stores_setRecord {s : Service} {u : Uid} (hu : s.currentUser = some u) (d : Dict) :
    Stores s (s.setRecord u d) where
  registers := by
    funext i
    by_cases hi : i.1 = u
    · simp [Service.registers, setRecord, Machine.replay, Effect.stores, hi]
    · simp [Service.registers, setRecord, Machine.replay, Effect.stores, hi]
  own b hb i hi := by
    obtain rfl := List.mem_singleton.mp hb
    by_cases h : i.1 = u
    · rw [h, hu]
    · simp [Effect.stores, h] at hi

theorem stores_setField {s : Service} {u : Uid} (hu : s.currentUser = some u) (k : Key)
    (v : Option String) : Stores s (s.setField u k v) where
  registers := by
    funext ⟨u', k'⟩
    by_cases hi : u' = u
    · subst hi
      by_cases hk : k' = k <;>
        simp [Service.registers, setField, Machine.replay, Effect.stores, hk]
    · simp [Service.registers, setField, Machine.replay, Effect.stores, hi]
  own b hb i hi := by
    obtain rfl := List.mem_singleton.mp hb
    by_cases h : i.1 = u
    · rw [h, hu]
    · simp [Effect.stores, h] at hi

theorem Stores.thenSend {s : Service} {r : Done} (h : Stores s r) (m : Message) :
    Stores s (r.1, r.2 ++ [.send m]) where
  registers := by
    rw [h.registers, Machine.replay_append]
    rfl
  own := by
    refine List.forall_mem_append.mpr ⟨h.own, ?_⟩
    simp [show (Effect.send m).stores = fun _ => none from rfl]

theorem Called.stores {s : Service} {i : ScreenId} {t : String} {c : Call} {r : Done}
    (h : Called s i t c r) : Stores s r := by
  cases h with
  | saved hu | updated hu => exact stores_setRecord hu _
  | linkingGG => exact stores_silent rfl (by simp; rfl)
  | loggedOut => exact stores_silent rfl (by simp [send]; rfl)
  | unsaved | notUpdated | notFetching => exact stores_raise s _
  | notLoggedOut => exact stores_send s _
  | _ => exact stores_silent rfl (by simp)

theorem Completed.stores {s : Service} {t : String} {i : ScreenId} {q : Reply} {r : Done}
    (h : Completed s t i q r) : Stores s r := by
  cases h with
  | fetched d => exact (stores_send { s with newUser := _ } _).of_same rfl rfl
  | imageUnsaved => exact (stores_raise { s with mDownloadedURL := _ } _).of_same rfl rfl
  | @imageSaved u token uid hu =>
    have hfield := stores_setField (s := { s with mDownloadedURL := some (storageURL u token) }) hu
      .mUserImgUrl (some (storageURL u token))
    exact (hfield.thenSend _).of_same rfl rfl
  | fbLinked hu | ggLinked hu => exact (stores_setField hu _ _).thenSend _
  | registered hu => exact (stores_setRecord hu _).thenSend _
  | notDictionary | noEmail | unregistered | fbUnlinked | ggUnlinked => exact stores_raise s _
  | put | noURL | graphFailed | emailFound | providers => exact stores_silent rfl (by simp)
  | _ => exact stores_send s _

theorem Closed.stores {s : Service} {i : ScreenId} {p : Request} {q : DialogResult} {r : Done}
    (h : Closed s i p q r) : Stores s r := by
  cases h with
  | loginError | linkError => exact stores_send s _
  | linkResumed | linkGranted => exact stores_silent rfl (by simp; rfl)
  | _ => exact stores_silent rfl (by simp)

theorem ChildTold.stores {s : Service} {ob : Observer} {n : Node} {r : Done}
    (h : ChildTold s ob n r) : Stores s r := by
  cases h with
  | accepted => exact (stores_send { s with newUser := _ } _).of_same rfl rfl
  | ignored => exact stores_silent rfl (by simp)
  | notDictionary => exact stores_raise s _

theorem step_stores {s : Service} {e : ServiceEvent} {r : Done} (h : s.step e = some r)
    (he : e.isRemote = false) : Stores s r := by
  cases (stepped h).2 with
  | called hc => exact hc.stores
  | answered => exact stores_silent rfl (by simp)
  | refused => exact (stores_raise { s with pending := _ } _).of_same rfl rfl
  | completed _ hc => exact hc.stores.of_same rfl rfl
  | closed _ hc => exact hc.stores.of_same rfl rfl
  | told _ _ _ hc => exact hc.stores.of_same rfl rfl
  | remoteRecord | remoteField => cases he

end Service

/-- The same process over another content of the database. -/
def Service.over (s : Service) (users : Uid → Node) : Service := { s with users := users }

namespace Fleet

variable {δ : Type} [DecidableEq δ]

/-! ### One device -/

theorem step_run {f f' : Fleet δ} {d : δ} {e : ServiceEvent} {o : List Effect}
    (h : f.step (.run d e) = some (f', o)) :
    e.isRemote = false ∧ ∃ s, (f.sees d).step e = some (s, o) ∧
      f' = { users := s.users, devices := Function.update f.devices d s } := by
  rw [step] at h
  split_ifs at h with hr
  obtain ⟨r, hs, he⟩ := Option.map_eq_some_iff.mp h
  obtain ⟨rfl, rfl⟩ := Prod.mk.inj he
  exact ⟨by simpa using hr, r.1, hs, rfl⟩

theorem sees_update_self (users : Uid → Node) (devices : δ → Service) (d : δ) (s : Service)
    (hs : s.users = users) :
    sees { users := users, devices := Function.update devices d s } d = s := by
  subst hs
  simp [sees]

theorem sees_update_of_ne (users : Uid → Node) (devices : δ → Service) {d d' : δ} (hd : d ≠ d')
    (s : Service) : sees { users := users, devices := Function.update devices d' s } d =
      (devices d).over users := by
  simp [sees, Service.over, hd]

theorem restarted_launch (s : Service) : Service.Launch (restarted s) :=
  ⟨rfl, rfl, rfl, rfl, rfl, rfl⟩

def registers (f : Fleet δ) (i : Uid × Key) : Option String := (f.users i.1).field i.2

theorem registers_step {m : FleetMove δ} (hm : machine.Fires m) :
    m.after.registers = Machine.replay Effect.stores m.before.registers m.out ∧
      ∀ b ∈ m.out, ∀ i, b.stores i ≠ none →
        ∃ d e, m.event = .run d e ∧ (m.before.devices d).currentUser = some i.1 := by
  have hstep : m.before.step m.event = some (m.after, m.out) := hm
  cases he : m.event with
  | relaunch d =>
    rw [he] at hstep
    obtain ⟨hafter, hout⟩ := Prod.mk.inj (Option.some.inj hstep)
    rw [← hafter, ← hout]
    exact ⟨rfl, by simp⟩
  | run d e =>
    rw [he] at hstep
    obtain ⟨hr, s, hs, hafter⟩ := step_run hstep
    have hst := Service.step_stores hs hr
    refine ⟨?_, fun b hb i hi => ⟨d, e, rfl, hst.own b hb i hi⟩⟩
    rw [hafter]
    exact hst.registers

/-- In every run of any devices over one database, each field of each uid holds what was last
written to it, and every write comes from a device on which that uid is signed in. -/
theorem database_registers {f₀ f : Fleet δ} {h : List (FleetMove δ)} (hr : machine.Run f₀ h f) :
    (∀ u k, (f.users u).field k =
        (Machine.lastWrite Effect.stores h (u, k)).getD ((f₀.users u).field k)) ∧
      ∀ m ∈ h, ∀ b ∈ m.out, ∀ u k, b.stores (u, k) ≠ none →
        ∃ d e, m.event = .run d e ∧ (m.before.devices d).currentUser = some u :=
  ⟨fun u k => hr.registers Effect.stores registers (fun _ hm => (registers_step hm).1) (u, k),
    fun m hm b hb u k hw => (registers_step (hr.fires m hm)).2 b hb (u, k) hw⟩

theorem linked_registers :
    let r := (machine.exec [] (start signedInAs) (signupAnd linked)).get (by decide)
    Machine.lastWrite Effect.stores r.1 ("u", .mFBLinking) = some (some "true") ∧
      (∀ u k, (r.2.users u).field k = (Machine.lastWrite Effect.stores r.1 (u, k)).getD none) ∧
      ∀ m ∈ r.1, ∀ b ∈ m.out, ∀ u k, b.stores (u, k) ≠ none →
        ∃ d e, m.event = .run d e ∧ (m.before.devices d).currentUser = some u := by
  intro r
  have hr : machine.Run (start signedInAs) r.1 r.2 := Machine.exec_run (by decide)
  exact ⟨by decide, (database_registers hr).1, (database_registers hr).2⟩

end Fleet

end Mioto
