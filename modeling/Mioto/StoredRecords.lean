import Mioto.Fleet

/-! Whether every stored record is a whole one. Two of the five writers store all ten
fields at once, and three set a single field of whatever is there. -/

namespace Mioto

/-- What `transformUser` reads for `u` without finding anything missing. -/
def IsRecord (u : Uid) (n : Node) : Prop :=
  ∃ d, n = .dict d ∧ Complete d ∧ d .mUserID = some u

theorem isRecord_setField_iff {u : Uid} {n : Node} {k : Key} {v : String}
    (h : n ≠ .null → IsRecord u n) (hk : k ≠ .mUserID) :
    IsRecord u (n.setField k (some v)) ↔ n ≠ .null := by
  constructor
  · rintro ⟨d, hd, -, hu⟩ rfl
    have hf : (Node.null.setField k (some v)).field .mUserID = some u := by rw [hd]; exact hu
    simp [hk.symm] at hf
  · intro hn
    obtain ⟨d, rfl, hc, hu⟩ := h hn
    have hid : Function.update d k (some v) .mUserID = some u := by
      rw [Function.update_of_ne hk.symm, hu]
    have hsome : (Function.update d k (some v) .mUserID).isSome := by rw [hid]; rfl
    refine ⟨Function.update d k (some v), Node.ofDict_of_isSome hsome, fun k' => ?_, hid⟩
    by_cases hk' : k' = k
    · simp [hk']
    · rw [Function.update_of_ne hk']
      exact hc k'

namespace Fleet

variable {δ : Type}

def RecordsComplete (f : Fleet δ) : Prop := ∀ u, f.users u ≠ .null → IsRecord u (f.users u)

abbrev FleetMove (δ : Type) := Move (Fleet δ) (FleetEvent δ) Effect

def AlwaysComplete (h : List (FleetMove δ)) : Prop := Machine.Always (fun _ => RecordsComplete) h

/-- A step that writes a single field, of the user signed in on its device, finds a node
there to write it to. -/
def WritesToRecord (m : FleetMove δ) : Prop :=
  ∀ x ∈ m.event.serviceStep, ∀ u ∈ (m.before.devices x.1).currentUser,
    (m.before.devices x.1).writes x.2 ≠ none → m.before.users u ≠ .null

instance (m : FleetMove δ) : Decidable (WritesToRecord m) :=
  inferInstanceAs (Decidable (∀ x ∈ m.event.serviceStep,
    ∀ u ∈ (m.before.devices x.1).currentUser,
      (m.before.devices x.1).writes x.2 ≠ none → m.before.users u ≠ .null))

theorem recordsComplete_update {f : Fleet δ} (hf : f.RecordsComplete) (u : Uid) (n : Node) :
    (∀ v, Function.update f.users u n v ≠ .null → IsRecord v (Function.update f.users u n v)) ↔
      (n ≠ .null → IsRecord u n) := by
  constructor
  · intro h hn
    have hu := h u
    rw [Function.update_self] at hu
    exact hu hn
  · intro h v
    by_cases hv : v = u
    · subst hv
      rw [Function.update_self]
      exact h
    · rw [Function.update_of_ne hv]
      exact hf v

theorem recordsComplete_iff_of_writes {f : Fleet δ} (hf : f.RecordsComplete) {d : δ}
    {e : ServiceEvent} {users : Uid → Node} (hw : (f.sees d).Writes e users) :
    (∀ v, users v ≠ .null → IsRecord v (users v)) ↔
      ∀ u ∈ (f.devices d).currentUser, (f.devices d).writes e ≠ none → f.users u ≠ .null := by
  cases hw with
  | nothing h =>
    refine iff_of_true hf fun u hu hn => ?_
    rcases h with h | h
    · exact absurd (hu.symm.trans h) (by simp)
    · exact absurd h hn
  | record hw hd hu =>
    refine iff_of_true ((recordsComplete_update hf _ _).mpr fun _ => ⟨_, rfl, hd, hu⟩) ?_
    exact fun u _ hn => absurd hw hn
  | @field u k v hu hw hk =>
    have hone := isRecord_setField_iff (v := v) (hf u) hk
    have hstored : (f.users u).setField k (some v) ≠ .null := by
      intro hn
      have hfield := congrArg (Node.field · k) hn
      simp at hfield
    refine (recordsComplete_update hf u _).trans ?_
    rw [show (f.sees d).users = f.users from rfl]
    constructor
    · intro h u' hu' _
      obtain rfl : u = u' := Option.some.inj (hu.symm.trans hu')
      exact hone.mp (h hstored)
    · exact fun h _ => hone.mpr (h u hu fun hn => by cases hw.symm.trans hn)

theorem recordsComplete_launch {f : Fleet δ} (hl : Launch f) : f.RecordsComplete :=
  fun u hu => absurd (hl.users u) hu

variable [DecidableEq δ]

theorem recordsComplete_step {m : FleetMove δ} (hm : machine.Fires m)
    (hb : m.before.RecordsComplete) : m.after.RecordsComplete ↔ WritesToRecord m := by
  have hstep : m.before.step m.event = some (m.after, m.out) := hm
  unfold WritesToRecord
  cases he : m.event with
  | relaunch d =>
    rw [he] at hstep
    have hu : m.after.users = m.before.users :=
      congrArg (fun r => r.1.users) (Option.some.inj hstep).symm
    refine iff_of_true ?_ fun _ h => by cases h
    rw [RecordsComplete, hu]
    exact hb
  | run d e =>
    rw [he, step] at hstep
    split_ifs at hstep with hr
    obtain ⟨r, hs, he'⟩ := Option.map_eq_some_iff.mp hstep
    have hu : m.after.users = r.1.users := congrArg (fun r => r.1.users) he'.symm
    rw [RecordsComplete, hu, recordsComplete_iff_of_writes hb
      (Service.step_writes hs (by simpa using hr))]
    constructor
    · rintro h x hx
      obtain rfl := Option.some.inj hx
      exact h
    · exact fun h => h (d, e) rfl

/-- In every run of any devices from an empty database, all stored records are complete at
all times exactly when no step sets a field of a record that does not exist. -/
theorem records_complete_iff {f₀ f : Fleet δ} {h : List (FleetMove δ)} (hl : Launch f₀)
    (hr : machine.Run f₀ h f) : AlwaysComplete h ↔ ∀ m ∈ h, WritesToRecord m := by
  rw [← Machine.each_iff_mem]
  exact hr.always_iff (recordsComplete_launch hl) fun _ m _ hm hb => recordsComplete_step hm hb

def signupAnd (later : List ServiceEvent) : List (FleetEvent Bool) :=
  (ServiceEvent.call 0 "today" (.saveDataWithEmail (some "u@mail.com") (some "name") (some "dob")
    (some "gender") (some "img") (some "number") (some "false") (some "true")) :: later).map
    (.run false)

def linked : List ServiceEvent :=
  [.call 0 "today" .fbLinking, .dialog 0 (.granted "token"),
    .answer 0 (.linkedFacebook "u" (some "u") (.granted "token") false), .complete 0 "today"]

def signedInAs (d : Bool) : Option Uid := if d then none else some "u"

theorem signup_then_link_complete :
    let r := (machine.exec [] (start signedInAs)
      (signupAnd linked ++ [.relaunch false, .run true (.call 0 "today" .fetchAllData)])).get
      (by decide)
    machine.Run (start signedInAs) r.1 r.2 ∧ AlwaysComplete r.1 := by
  intro r
  have hr : machine.Run (start signedInAs) r.1 r.2 := Machine.exec_run _
  refine ⟨hr, (records_complete_iff (start_launch signedInAs) hr).mpr ?_⟩
  decide

theorem link_without_record_incomplete : ¬ ∀ f₀ h f, Launch f₀ →
    (machine (δ := Bool)).Run f₀ h f → AlwaysComplete h := by
  intro hall
  let r := (machine.exec [] (start signedInAs) (linked.map (.run false))).get (by decide)
  have hl : Launch (start signedInAs) := start_launch signedInAs
  have hr : machine.Run (start signedInAs) r.1 r.2 := Machine.exec_run _
  have ha := hr.of_always (recordsComplete_launch hl) (hall _ _ _ hl hr)
  obtain ⟨d, hd, hc, -⟩ := ha "u" (by decide)
  have hnone : (r.2.users "u").field .mUserEmail = none := by decide
  rw [hd] at hnone
  exact absurd (hc .mUserEmail) (by rw [show d .mUserEmail = none from hnone]; decide)

end Fleet

end Mioto
