import Mioto.ChildAdded

/-! Which screens can answer which reports. The services send a report to whatever
screen listens, and each class implements only a few of the callbacks. -/

namespace Mioto

/-- What the services do that ends in a report. Both Facebook dialogs report their
errors as a login does. -/
inductive Operation
  | profileFetch | imageUpload | facebookLogin | accountLink | friendsList | auth
  deriving DecidableEq, Repr

def Operation.listeners : Operation → List Kind
  | .profileFetch => [.profile, .edit]
  | .imageUpload => [.viewProfile]
  | .facebookLogin => [.menu]
  | .accountLink => [.profile]
  | .friendsList => [.friends]
  | .auth => [.signin, .signup, .forgotPassword, .profile]

def Reply.operation : Reply → Operation
  | .fetched .. | .fetchCancelled _ => .profileFetch
  | .putData .. | .downloadURL .. => .imageUpload
  | .graphMe _ | .providers .. | .signedInFacebook .. => .facebookLogin
  | .linkedFacebook .. | .linkedEmail .. => .accountLink
  | .createdUser .. | .signedIn _ | .resetSent _ => .auth

def Message.operation : Message → Operation
  | .profileDataRecieved _ => .profileFetch
  | .uploadProfileImageStatus _ => .imageUpload
  | .loginFbWithStatus _ => .facebookLogin
  | .linkingFBStatus _ | .linkingGGStatus _ => .accountLink
  | .successProfileWith _ => .friendsList
  | .authStatus _ => .auth

theorem mem_listeners_iff (k : Kind) (m : Message) :
    k ∈ m.operation.listeners ↔ k.implements m := by
  cases k <;> cases m <;> simp [Message.operation, Operation.listeners, Kind.implements]

theorem Reply.operation_of_announced {s : Service} {r : Reply} {m : Message}
    (h : r.announced s = some m) : r.operation = m.operation := by
  unfold Reply.announced at h
  split at h <;> (try split_ifs at h) <;> cases h <;> rfl

namespace App

def operation (s : Service) : ServiceEvent → Option Operation
  | .complete k _ => (s.replies[k]?).map (·.reply.operation)
  | .dialog .. => some .facebookLogin
  | .call .. => some .auth
  | _ => none

/-- The operation whose end an event reports. A child-added event reports if some
observer has something to report. -/
def reported (s : App) (e : Event) : Option Operation :=
  match e.act with
  | .childAdded v =>
    if ∃ ob ∈ s.service.observers, (s.service.due v ob).isSome then some .friendsList else none
  | _ => (reporting e).bind fun se =>
    if (s.service.announced se).isSome then operation s.service se else none

/-- The screen that will be told of the end of an operation. -/
def audience (s : App) (op : Operation) : Option ScreenId :=
  match op with
  | .auth => s.authListener
  | _ => s.fireBaseListener

/-- Every message goes to a screen whose class implements it. -/
def Answerable (m : AppMove) : Prop :=
  ∀ x ∈ deliveries m.out, ∃ sc, m.before.screens x.1 = some sc ∧ sc.kind.implements x.2

/-- An operation that reports finds a listener of a class that can be told, or none. -/
def ListenerSuits (m : AppMove) : Prop :=
  ∀ op i sc, m.before.reported m.event = some op → m.before.audience op = some i →
    m.before.screens i = some sc → sc.kind ∈ op.listeners

theorem audience_operation (s : App) (m : Message) : s.audience m.operation = s.listener m := by
  cases m <;> rfl

theorem operation_of_announced {s : App} {e : Event} {se : ServiceEvent} {m : Message}
    (hr : reporting e = some se) (hm : s.service.announced se = some m) :
    operation s.service se = some m.operation := by
  rcases reporting_eq_some hr with ⟨i, keychain, -, rfl⟩ | ⟨k, -, rfl⟩ | ⟨k, q, -, rfl⟩
  · obtain rfl := Option.some.inj hm
    rfl
  · obtain ⟨w, hw, hm⟩ := Option.bind_eq_some_iff.mp hm
    simp [operation, hw, Reply.operation_of_announced hm]
  · rw [Service.announced_dialog hm]
    rfl

theorem answerable_childAdded_iff {s s' : App} {e : Event} {o : List Output}
    (h : s.step e = some (s', o)) {v : Uid} (hv : e.act = .childAdded v) :
    Answerable ⟨s, e, s', o⟩ ↔ ListenerSuits ⟨s, e, s', o⟩ := by
  have ht := step_taken h
  have ho : o = ((s.reserve e).childAdded e.stringTime [e.fresh, e.fresh'] v).2 :=
    congrArg Prod.snd (ht.childAdded hv)
  subst ho
  constructor
  · intro ha op i sc hop hi hsc
    simp only [reported, hv] at hop
    split_ifs at hop with hdue
    obtain rfl := Option.some.inj hop
    obtain ⟨ob, hob, hdue⟩ := hdue
    obtain ⟨d, hd⟩ := Option.isSome_iff_exists.mp hdue
    have hmem := childAdded_delivers e.stringTime [e.fresh, e.fresh']
      (s := s.reserve e) ht.raised ht.serviceRaised hob hd hi
      (Option.isSome_iff_exists.mpr ⟨sc, hsc⟩)
    obtain ⟨sc', hsc', hk⟩ := ha _ hmem
    obtain rfl : sc' = sc := Option.some.inj (hsc'.symm.trans hsc)
    exact (mem_listeners_iff _ _).mpr hk
  · intro hs x hx
    obtain ⟨hi, hex⟩ := childAdded_receiver hx
    obtain ⟨sc, hsc⟩ := Option.isSome_iff_exists.mp hex
    have hdue : ∃ ob ∈ s.service.observers, (s.service.due v ob).isSome := by
      by_contra hn
      push Not at hn
      have hsil := childAdded_silent e.stringTime [e.fresh, e.fresh']
        (s := s.reserve e) fun ob hob => Option.not_isSome_iff_eq_none.mp (hn ob hob)
      rw [hsil] at hx
      cases hx
    have hop : s.reported e = some .friendsList := by simp only [reported, hv, if_pos hdue]
    obtain ⟨p, hp⟩ := mem_deliveries_childAdded hx
    have hk := hs .friendsList x.1 sc hop hi hsc
    refine ⟨sc, hsc, ?_⟩
    rw [hp]
    exact (mem_listeners_iff _ (.successProfileWith p)).mp hk

theorem answerable_report_iff {s s' : App} {e : Event} {o : List Output}
    (h : s.step e = some (s', o)) (hv : ∀ v, e.act ≠ .childAdded v) :
    Answerable ⟨s, e, s', o⟩ ↔ ListenerSuits ⟨s, e, s', o⟩ := by
  have hd := deliveries_step h hv
  have hrep : s.reported e = (reporting e).bind fun se =>
      if (s.service.announced se).isSome then operation s.service se else none := by
    unfold reported
    split
    · next v ha => exact absurd ha (hv v)
    · rfl
  cases hse : reporting e with
  | none => simp [Answerable, ListenerSuits, hd, hrep, hse]
  | some se =>
    cases hm : s.service.announced se with
    | none => simp [Answerable, ListenerSuits, hd, hrep, hse, hm]
    | some m =>
      simp only [hse, hm, Option.bind_some, Option.isSome_some, if_true,
        operation_of_announced hse hm] at hd hrep
      constructor
      · intro ha op i sc hop hi hsc
        obtain rfl : m.operation = op := Option.some.inj (hrep.symm.trans hop)
        have hl : s.listening m = some (i, sc) :=
          listening_eq_some.mpr ⟨(audience_operation s m).symm.trans hi, hsc⟩
        have hx : (i, m) ∈ deliveries o := by simp [hd, receiver, hl]
        obtain ⟨sc', hsc', hk⟩ := ha _ hx
        obtain rfl : sc' = sc := Option.some.inj (hsc'.symm.trans hsc)
        exact (mem_listeners_iff _ _).mpr hk
      · intro hs x hx
        change x ∈ deliveries o at hx
        rw [hd, Option.mem_toList] at hx
        obtain ⟨⟨i, sc⟩, hl, rfl⟩ := Option.map_eq_some_iff.mp hx
        obtain ⟨hi, hsc⟩ := listening_eq_some.mp hl
        exact ⟨sc, hsc, (mem_listeners_iff _ _).mp
          (hs m.operation i sc hrep ((audience_operation s m).trans hi) hsc)⟩

theorem answerable_iff {m : AppMove} (hm : machine.Fires m) : Answerable m ↔ ListenerSuits m := by
  by_cases hv : ∃ v, m.event.act = .childAdded v
  · obtain ⟨v, hv⟩ := hv
    exact answerable_childAdded_iff hm hv
  · exact answerable_report_iff hm (not_exists.mp hv)

/-- In every run no screen gets a message it does not implement exactly when every
operation that reports finds a listener that can be told. -/
theorem messages_implemented_iff {s₀ s : App} {h : AppHistory} (hr : machine.Run s₀ h s) :
    (∀ m ∈ h, Answerable m) ↔ ∀ m ∈ h, ListenerSuits m :=
  hr.forall_iff fun _ hm => answerable_iff hm

def linkFacebook (result : DialogResult) : List Event :=
  script 0 [.launch, .answer 0 (.fetched "u" (.dict (Service.signupRecord "u"))), .complete 0,
    .touch 1 .fbLinking, .dialog 0 result]

theorem granted_link_implemented :
    let r := (machine.exec [] (start (Service.launch (some "u") ["u"]))
      (linkFacebook (.granted "token"))).get (by decide)
    machine.Run (start (Service.launch (some "u") ["u"])) r.1 r.2 ∧
      ∀ m ∈ r.1, Answerable m := by
  intro r
  have hr : machine.Run (start (Service.launch (some "u") ["u"])) r.1 r.2 := Machine.exec_run _
  refine ⟨hr, (messages_implemented_iff hr).mpr ?_⟩
  generalize hh : r.1 = h
  have hsuits : ∀ m ∈ h, ∀ op ∈ m.before.reported m.event, ∀ i ∈ m.before.audience op,
      ∀ sc ∈ m.before.screens i, sc.kind ∈ op.listeners := by
    rw [← hh]
    decide
  intro m hm op i sc hop hi hsc
  exact hsuits m hm op hop i hi sc hsc

theorem not_answerable {m : AppMove} {i : ScreenId} {n : Message} {k : Kind}
    (hd : (i, n) ∈ deliveries m.out) (hk : (m.before.screens i).map Screen.kind = some k)
    (hn : k.implements n = false) : ¬ Answerable m := by
  intro ha
  obtain ⟨sc, hsc, hi⟩ := ha _ hd
  obtain rfl : sc.kind = k := by simpa [hsc] using hk
  rw [hn] at hi
  cases hi

theorem failed_link_dialog_unimplemented : ¬ ∀ s₀ h s, Launch s₀ → machine.Run s₀ h s →
    ∀ m ∈ h, Answerable m := by
  intro hall
  let r := (machine.exec [] (start (Service.launch (some "u") ["u"]))
    (linkFacebook .error)).get (by decide)
  have hr : machine.Run _ r.1 r.2 := Machine.exec_run _
  have ha := hall _ _ _ (start_launch (some "u") ["u"]) hr (r.1.head (by decide)) (List.head_mem _)
  exact not_answerable (i := 1) (n := .loginFbWithStatus 0) (k := .profile) (by decide)
    (by decide) rfl ha

end App

end Mioto
