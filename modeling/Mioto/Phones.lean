import Mioto.Devices
import Mioto.ServiceSteps

/-! The whole system: the app on any number of phones over one database. What the phones do to
the database is what a fleet of devices does, so the facts about fleets are facts about them. -/

namespace Mioto

def Act.isRemote : Act → Bool
  | .remoteRecord _ _ | .remoteField _ _ _ => true
  | _ => false

/-- The database, and the app on each phone. What an app's own `users` holds is what the
database held at its last act. -/
structure Phones (δ : Type) where
  users : Uid → Node
  apps : δ → App

/-- An act on a phone, or its app killed there. -/
inductive PhoneEvent (δ : Type)
  | act (d : δ) (e : Event)
  | kill (d : δ)

def App.over (s : App) (users : Uid → Node) : App := { s with service := s.service.over users }

namespace Phones

variable {δ : Type}

def sees (p : Phones δ) (d : δ) : App := (p.apps d).over p.users

structure Launch (p : Phones δ) : Prop where
  users : ∀ u, p.users u = .null
  apps : ∀ d, App.Launch (p.apps d)

def start (currentUser : δ → Option Uid) : Phones δ where
  users _ := .null
  apps d := App.start (Service.launch (currentUser d) [])

theorem start_launch (currentUser : δ → Option Uid) : Launch (start currentUser) :=
  ⟨fun _ => rfl, fun d => App.start_launch (currentUser d) []⟩

variable [DecidableEq δ]

theorem sees_update_self (users : Uid → Node) (apps : δ → App) (d : δ) (s : App) :
    sees { users := users, apps := Function.update apps d s } d = s.over users := by
  simp [sees]

theorem sees_update_of_ne (users : Uid → Node) (apps : δ → App) {d d' : δ} (hd : d ≠ d') (s : App) :
    sees { users := users, apps := Function.update apps d' s } d = (apps d).over users := by
  simp [sees, hd]

def step (p : Phones δ) : PhoneEvent δ → Option (Phones δ × List Output)
  | .act d e =>
    if e.act.isRemote then none
    else ((p.sees d).step e).map fun r =>
      ({ users := r.1.service.users, apps := Function.update p.apps d r.1 }, r.2)
  | .kill d =>
    some ({ p with
      apps := Function.update p.apps d (App.start (Fleet.restarted (p.apps d).service)) }, [])

def machine : Machine (Phones δ) (PhoneEvent δ) Output := ⟨step⟩

abbrev PhoneMove (δ : Type) := Move (Phones δ) (PhoneEvent δ) Output

theorem step_act {p p' : Phones δ} {d : δ} {e : Event} {o : List Output}
    (h : p.step (.act d e) = some (p', o)) : e.act.isRemote = false ∧
      ∃ s, (p.sees d).step e = some (s, o) ∧
        p' = { users := s.service.users, apps := Function.update p.apps d s } := by
  rw [step] at h
  split_ifs at h with hr
  obtain ⟨r, hs, he⟩ := Option.map_eq_some_iff.mp h
  obtain ⟨rfl, rfl⟩ := Prod.mk.inj he
  exact ⟨by simpa using hr, r.1, hs, rfl⟩

end Phones

namespace App

/-- The services of an app take no step from outside of their own accord. -/
theorem serviceMoves_local {s : App} {e : Event} {r : Outcome} (h : s.step e = some r)
    (he : e.act.isRemote = false) : ∀ sm ∈ serviceMoves r.2, sm.event.isRemote = false := by
  intro sm hsm
  cases hrep : e.act.report e.stringTime with
  | none =>
    generalize hev : sm.event = se
    have ha : Asked s e se := hev ▸ asked_of_step h hrep sm hsm
    cases ha with
    | button | callsBack | tells => rfl
    | silent hsil =>
      rcases Act.silent_eq_some hsil with ⟨k, q, ha, rfl⟩ | ⟨u, x, ha, rfl⟩ | ⟨u, k, v, ha, rfl⟩
      · rfl
      all_goals simp [ha, Act.isRemote] at he
  | some se =>
    obtain ⟨rr, rest, -, hmoves, hrest⟩ := report_of_step h hrep
    rw [hmoves] at hsm
    rcases List.mem_cons.mp hsm with rfl | hm
    · rcases Act.report_eq_some hrep with ⟨k, -, rfl⟩ | ⟨k, q, -, rfl⟩ <;> rfl
    · obtain ⟨j, c, hev, -⟩ := hrest sm hm
      rw [hev]
      rfl

end App

namespace Fleet

variable {δ : Type} [DecidableEq δ]

/-- The steps of a device's services, one after the other, in a fleet. -/
theorem exists_run_of_service {d : δ} {s s' : Service} {g : ServiceHistory}
    (hr : Service.machine.Run s g s') (hg : ∀ sm ∈ g, sm.event.isRemote = false) {f : Fleet δ}
    (hf : f.sees d = s) : ∃ f' h, machine.Run f h f' ∧ f'.sees d = s' ∧
      (∀ d' ≠ d, f'.devices d' = f.devices d') ∧
      h.map (fun m => (m.event, m.out)) = g.map fun sm => (.run d sm.event, sm.out) := by
  induction hr with
  | nil => exact ⟨f, [], .nil, hf, fun _ _ => rfl, rfl⟩
  | @cons g sm hr hm ih =>
    obtain ⟨hsm, hg⟩ := List.forall_mem_cons.mp hg
    obtain ⟨f₁, h, hrun, hsees, hsame, hout⟩ := ih hg
    let f₂ : Fleet δ := ⟨sm.after.users, Function.update f₁.devices d sm.after⟩
    have hstep : f₁.step (.run d sm.event) = some (f₂, sm.out) := by
      simp only [step, hsm, hsees, Bool.false_eq_true, if_false]
      rw [show sm.before.step sm.event = some (sm.after, sm.out) from hm]
      rfl
    refine ⟨f₂, ⟨f₁, .run d sm.event, f₂, sm.out⟩ :: h, hrun.cons (m := ⟨f₁, _, f₂, _⟩) hstep,
      sees_update_self _ _ d sm.after rfl, fun d' hd => ?_, by simp [hout]⟩
    exact (Function.update_of_ne hd _ _).trans (hsame d' hd)

end Fleet

namespace Phones

variable {δ : Type} [DecidableEq δ]

/-- The database is the same and so are the services, as each phone sees them. -/
structure Alike (p : Phones δ) (f : Fleet δ) : Prop where
  users : f.users = p.users
  sees : ∀ d, f.sees d = (p.sees d).service

/-- The moves of a fleet that a move of the phones amounts to. -/
inductive Amounts (m : PhoneMove δ) : List (Fleet.FleetMove δ) → Prop
  | act {d : δ} {e : Event} {g : List (Fleet.FleetMove δ)} (he : m.event = .act d e)
      (hg : g.map (fun fm => (fm.event, fm.out)) =
        (serviceMoves m.out).reverse.map fun sm => (.run d sm.event, sm.out)) : Amounts m g
  | kill {d : δ} {fm : Fleet.FleetMove δ} (he : m.event = .kill d) (hg : fm.event = .relaunch d) :
      Amounts m [fm]

omit [DecidableEq δ] in
theorem alike_launch {p : Phones δ} : Alike p ⟨p.users, fun d => (p.apps d).service⟩ :=
  ⟨rfl, fun _ => rfl⟩

omit [DecidableEq δ] in
theorem over_eq_of_sees {p : Phones δ} {f : Fleet δ} (h : Alike p f) (d : δ) (users : Uid → Node) :
    (f.devices d).over users = (p.apps d).service.over users := by
  have hs : (f.sees d).over users = (p.sees d).service.over users := by rw [h.sees d]
  exact hs

theorem exists_amounts (m : PhoneMove δ) (f : Fleet δ) (hm : machine.Fires m)
    (h : Alike m.before f) :
    ∃ g f', Fleet.machine.Run f g f' ∧ Alike m.after f' ∧ Amounts m g := by
  have hstep : m.before.step m.event = some (m.after, m.out) := hm
  cases he : m.event with
  | kill d =>
    rw [he] at hstep
    have hafter : Phones.mk m.before.users (Function.update m.before.apps d
        (App.start (Fleet.restarted (m.before.apps d).service))) = m.after :=
      congrArg Prod.fst (Option.some.inj hstep)
    let f' : Fleet δ := ⟨f.users, Function.update f.devices d (Fleet.restarted (f.devices d))⟩
    refine ⟨[⟨f, .relaunch d, f', []⟩], f', .cons (m := ⟨f, _, f', _⟩) .nil rfl,
      ⟨?_, fun d' => ?_⟩, .kill he rfl⟩
    · rw [← hafter]
      exact h.users
    · rw [← hafter]
      by_cases hd : d' = d
      · subst hd
        have hs := congrArg (fun s => (Fleet.restarted s).over f.users)
          (over_eq_of_sees h d' f.users)
        have hf : f'.sees d' = (Fleet.restarted (f.devices d')).over f.users := by
          simp [f', Fleet.sees, Service.over]
        rw [hf, sees_update_self]
        exact hs.trans (by rw [h.users]; rfl)
      · have hf : f'.sees d' = f.sees d' := by simp [f', Fleet.sees, hd]
        rw [hf, sees_update_of_ne _ _ hd]
        exact h.sees d'
  | act d e =>
    rw [he] at hstep
    obtain ⟨hr, s, hs, hafter⟩ := step_act hstep
    have hrun := (App.total_service e.stringTime).does rfl (App.step_taken hs).does
    have hlocal := App.serviceMoves_local hs hr
    obtain ⟨f', g, hfrun, hsees, hsame, hout⟩ := Fleet.exists_run_of_service (d := d) (f := f) hrun
      (fun sm hsm => hlocal sm (List.mem_reverse.mp hsm)) (h.sees d)
    have husers : f'.users = s.service.users := congrArg Service.users hsees
    refine ⟨g, f', hfrun, ⟨by rw [hafter]; exact husers, fun d' => ?_⟩, .act he hout⟩
    rw [hafter]
    by_cases hd : d' = d
    · subst hd
      rw [hsees]
      simp [sees, App.over, Service.over]
    · have hd' := over_eq_of_sees h d' s.service.users
      rw [← hsame d' hd, ← husers] at hd'
      simpa [Fleet.sees, sees, App.over, hd, Service.over, husers] using hd'

/-- Every run of the app on any phones over one database is, service step by service step, a
run of a fleet of devices that ends over the same database. -/
theorem phones_refine_fleet {p₀ p : Phones δ} {h : List (PhoneMove δ)} (hl : Launch p₀)
    (hr : machine.Run p₀ h p) : ∃ f₀ f gs, Fleet.Launch f₀ ∧ Fleet.machine.Run f₀ gs.flatten f ∧
      Alike p f ∧ List.Forall₂ Amounts h gs := by
  obtain ⟨gs, f, hrun, hR, hT⟩ := hr.simulate (fun m f hm h => exists_amounts m f hm h) alike_launch
  exact ⟨_, f, gs, ⟨hl.users, fun d => (hl.apps d).service⟩, hrun, hR, hT⟩

/-- A sign-up on one phone while the app is opened on another. -/
def signUpOnOne : List (PhoneEvent Bool) :=
  (App.script 0 [.launch, .touch 0 .menuSignupButton, .touch 2 (.typed .username "An"),
    .touch 2 (.typed .email "u@mail.com"), .touch 2 (.typed .password "secret"),
    .touch 2 (.typed .rePassword "secret"), .touch 2 .checkbox00, .touch 2 .checkbox01,
    .touch 2 (.signupButton true), .answer 0 (.createdUser "u@mail.com" "An" (some "u")),
    .complete 0]).map (.act false) ++ (App.script 0 [.launch]).map (.act true)

theorem sign_up_refines :
    let r := (machine.exec [] (start fun _ : Bool => none) signUpOnOne).get (by decide)
    (r.2.users "u").field .mUserName = some "An" ∧ ∃ f₀ f gs, Fleet.Launch f₀ ∧
      Fleet.machine.Run f₀ gs.flatten f ∧ Alike r.2 f ∧ List.Forall₂ Amounts r.1 gs := by
  intro r
  exact ⟨by decide, phones_refine_fleet (start_launch fun _ => none) (Machine.exec_run (by decide))⟩

end Phones

end Mioto
