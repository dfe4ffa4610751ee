import Mioto.ChildAdded
import Mioto.Devices
import Mioto.Operations

/-! Where what is cached and what is on display comes from: a record that the database held,
whole, at an earlier moment. -/

namespace Mioto

/-- `p` is what `transformUser` made of a record in `H`. -/
def FromRecord (H : Uid → Dict → Prop) (p : Profile) : Prop := ∃ u d, H u d ∧ p = transformUser d

namespace Service

/-- All snapshots on their way and the cache are records in `H`. -/
structure Sourced (H : Uid → Dict → Prop) (s : Service) : Prop where
  replies : ∀ w ∈ s.replies, ∀ x ∈ w.reply.fetchedRecord, H x.1 x.2
  newUser : ∀ p ∈ s.newUser, FromRecord H p

variable {H H' : Uid → Dict → Prop}

theorem Sourced.mono (hH : ∀ u d, H u d → H' u d) {s : Service} (h : Sourced H s) :
    Sourced H' s where
  replies w hw x hx := hH _ _ (h.replies w hw x hx)
  newUser p hp := by
    obtain ⟨u, d, hd, he⟩ := h.newUser p hp
    exact ⟨u, d, hH u d hd, he⟩

theorem sourced_launch (H : Uid → Dict → Prop) {s : Service} (hl : Launch s) : Sourced H s where
  replies := by simp [hl.replies]
  newUser := by simp [hl.newUser]

theorem answers_fetched {s : Service} {q : Request} {r : Reply} (h : s.answers q r) :
    ∀ x ∈ r.fetchedRecord, s.users x.1 = .dict x.2 := by
  intro x hx
  unfold Reply.fetchedRecord at hx
  split at hx
  · next u d =>
    obtain rfl := Option.some.inj hx
    cases q <;> simp only [answers, decide_eq_true_eq, Bool.false_eq_true] at h
    obtain ⟨rfl, hn⟩ := h
    exact hn.symm
  · cases hx

theorem fetches_mem {s : Service} {e : ServiceEvent} {x : Uid × Dict} (h : s.fetches e = some x) :
    ∃ w ∈ s.replies, w.reply.fetchedRecord = some x := by
  cases e <;> simp only [fetches, reduceCtorEq] at h
  obtain ⟨w, hw, hx⟩ := Option.bind_eq_some_iff.mp h
  exact ⟨w, List.mem_of_getElem? hw, hx⟩

theorem reports_eq_some {s : Service} {e : ServiceEvent} {d : Dict} (h : s.reports e = some d) :
    ∃ o v ob, e = .childAdded o v ∧ s.observers[o]? = some ob ∧ s.users v = .dict d ∧
      ob.accepts d := by
  unfold reports at h
  split at h
  · next o v =>
    split at h
    · next ob d' ho hv =>
      split_ifs at h with ha
      obtain rfl := Option.some.inj h
      exact ⟨o, v, ob, rfl, ho, hv, ha⟩
    · cases h
  · cases h

theorem newUser_of_reports {s : Service} {e : ServiceEvent} {r : Done} {d : Dict}
    (h : s.step e = some r) (hd : s.reports e = some d) : r.1.newUser = some (transformUser d) := by
  obtain ⟨o, v, ob, rfl, ho, hv, ha⟩ := reports_eq_some hd
  cases (stepped h).2 with
  | told ho' _ _ hc =>
    obtain rfl := Option.some.inj (ho.symm.trans ho')
    rw [hv] at hc
    cases hc with
    | accepted => rfl
    | ignored ha' => simp [ha] at ha'
    | notDictionary hn => exact absurd rfl (hn d)

/-- A step takes no record from anywhere but the database as it stands, and only when a
request is answered or a child reported. -/
theorem sourced_step {s : Service} {e : ServiceEvent} {r : Done} (h : s.step e = some r)
    (hs : Sourced H s)
    (hu : ∀ u d, s.users u = .dict d → (∃ k q, e = .answer k q) ∨ (∃ o v, e = .childAdded o v) →
      H u d) : Sourced H r.1 where
  replies w hw x hx := by
    rcases replies_step h w hw with hw | ⟨k, p, -, he, ha⟩
    · exact hs.replies w hw x hx
    · exact hu _ _ (answers_fetched ha x hx) (.inl ⟨k, w.reply, he⟩)
  newUser p hp := by
    cases hf : s.fetches e with
    | some x =>
      rw [newUser_of_fetches h hf] at hp
      obtain ⟨w, hw, hx⟩ := fetches_mem hf
      exact ⟨x.1, x.2, hs.replies w hw x hx, (Option.some.inj hp).symm⟩
    | none =>
      cases hr : s.reports e with
      | some d =>
        rw [newUser_of_reports h hr] at hp
        obtain ⟨o, v, ob, rfl, -, hv, -⟩ := reports_eq_some hr
        exact ⟨v, d, hu v d hv (.inr ⟨o, v, rfl⟩), (Option.some.inj hp).symm⟩
      | none =>
        rw [newUser_of_none h hf hr] at hp
        exact hs.newUser p hp

end Service

/-! ### Many devices -/

namespace Fleet

variable {δ : Type} [DecidableEq δ]

/-- `Users/u` held `x` at some moment of the run since the app was last started on `d`. -/
def StoredSince (f₀ : Fleet δ) (h : List (FleetMove δ)) (d : δ) (u : Uid) (x : Dict) : Prop :=
  ∃ newer older f, h = newer ++ older ∧ machine.Run f₀ older f ∧ f.users u = .dict x ∧
    ∀ m ∈ newer, m.event ≠ .relaunch d

theorem StoredSince.cons {f₀ : Fleet δ} {h : List (FleetMove δ)} {d : δ} {u : Uid} {x : Dict}
    (hx : StoredSince f₀ h d u x) {m : FleetMove δ} (hm : m.event ≠ .relaunch d) :
    StoredSince f₀ (m :: h) d u x := by
  obtain ⟨newer, older, f, rfl, hr, hu, hn⟩ := hx
  exact ⟨m :: newer, older, f, rfl, hr, hu, List.forall_mem_cons.mpr ⟨hm, hn⟩⟩

theorem sourced_cons {f₀ : Fleet δ} {h : List (FleetMove δ)} {m : FleetMove δ}
    (hr : machine.Run f₀ h m.before) (hm : machine.Fires m) {d : δ}
    (hs : Service.Sourced (StoredSince f₀ h d) (m.before.devices d)) :
    Service.Sourced (StoredSince f₀ (m :: h) d) (m.after.devices d) := by
  have hstep : m.before.step m.event = some (m.after, m.out) := hm
  cases he : m.event with
  | relaunch d' =>
    rw [he] at hstep
    rw [← show _ = m.after from congrArg Prod.fst (Option.some.inj hstep)]
    by_cases hd : d = d'
    · subst hd
      simpa using Service.sourced_launch _ (restarted_launch (m.before.devices d))
    · simpa [hd] using hs.mono fun u x hx => hx.cons (by simpa [he] using Ne.symm hd)
  | run d' e =>
    rw [he] at hstep
    obtain ⟨-, s, hss, hafter⟩ := step_run hstep
    have hmono := hs.mono fun u x (hx : StoredSince f₀ h d u x) => hx.cons (m := m) (by simp [he])
    rw [hafter]
    by_cases hd : d = d'
    · subst hd
      simp only [Function.update_self]
      refine Service.sourced_step hss ⟨hmono.replies, hmono.newUser⟩ fun u x hu _ => ?_
      exact ⟨[m], h, m.before, rfl, hr, hu, by simp [he]⟩
    · simpa [hd] using hmono

/-- In every run of any devices over one database, what a device has cached, and each snapshot
on its way there, is a record that the database held, whole and at one moment, since the app
was last started on that device. A fetch is answered with what the database then holds, and a
set takes effect when it is made. -/
theorem cached_was_stored {f₀ f : Fleet δ} {h : List (FleetMove δ)} (hl : Launch f₀)
    (hr : machine.Run f₀ h f) (d : δ) : (∀ p, (f.devices d).newUser = some p →
        ∃ u x, StoredSince f₀ h d u x ∧ p = transformUser x) ∧
      ∀ w ∈ (f.devices d).replies, ∀ u x, w.reply = .fetched u (.dict x) →
        StoredSince f₀ h d u x := by
  have hs : Service.Sourced (StoredSince f₀ h d) (f.devices d) := by
    induction hr with
    | nil => exact Service.sourced_launch _ (hl.devices d)
    | cons hr hm ih => exact sourced_cons hr hm ih
  exact ⟨hs.newUser, fun w hw u x hx => hs.replies w hw (u, x) (by rw [hx]; rfl)⟩

def signupThenFetch : List (FleetEvent Bool) :=
  signupAnd [.call 0 "today" .fetchData,
    .answer 0 (.fetched "u" (.dict (Service.savedRecord "u" "today" (some "u@mail.com")
      (some "name") (some "dob") (some "gender") (some "img") (some "number") (some "false")
      (some "true")))), .complete 0 "today"]

theorem fetched_was_stored :
    let r := (machine.exec [] (start signedInAs) signupThenFetch).get (by decide)
    ((r.2.devices false).newUser.bind Profile.mUserName) = some "name" ∧
      (∀ p, (r.2.devices false).newUser = some p →
        ∃ u x, StoredSince (start signedInAs) r.1 false u x ∧ p = transformUser x) ∧
      ∀ w ∈ (r.2.devices false).replies, ∀ u x, w.reply = .fetched u (.dict x) →
        StoredSince (start signedInAs) r.1 false u x := by
  intro r
  exact ⟨by decide,
    cached_was_stored (start_launch signedInAs) (Machine.exec_run (by decide)) false⟩

end Fleet

end Mioto
