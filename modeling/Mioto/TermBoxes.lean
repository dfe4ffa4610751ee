import Mioto.Loads

/-! The two term boxes of a Signup screen. A touch turns a box over; the checks that find
something wrong with a named form, and a sign-up that fails, clear both. -/

namespace Mioto

inductive TermBox
  | checkbox00 | checkbox01
  deriving DecidableEq, Repr

namespace SignupScreen

def box (su : SignupScreen) : TermBox → Bool
  | .checkbox00 => su.checkbox00
  | .checkbox01 => su.checkbox01

def named (su : SignupScreen) : Bool := utf16Length su.username ≠ 0

end SignupScreen

def Touch.turns : Touch → TermBox → Bool
  | .checkbox00, .checkbox00 | .checkbox01, .checkbox01 => true
  | _, _ => false

def Act.turns (i : ScreenId) (b : TermBox) : Act → Bool
  | .touch j t => j = i && t.turns b
  | _ => false

/-- A tap on the sign-up button of `su`, the form of the screen `i`, does not pass. -/
def Act.rejected (i : ScreenId) (su : SignupScreen) : Act → Bool
  | .touch j (.signupButton aliased) => j = i && (su.check aliased).isSome
  | _ => false

namespace App

def signupAt (s : App) (i : ScreenId) : Option SignupScreen :=
  match s.screens i with
  | some (.signup su) => some su
  | _ => none

theorem signupAt_eq_some {s : App} {i : ScreenId} {su : SignupScreen} :
    s.signupAt i = some su ↔ s.screens i = some (.signup su) := by
  unfold signupAt
  split
  · next su' h => simp [h]
  · next h => exact iff_of_false (by simp) (h su)

/-- The boxes of `i` start anew, or are cleared together with fields of the form. -/
def clears (i : ScreenId) (m : AppMove) : Bool :=
  (loads m.out).contains (i, .signup) || (m.before.signupAt i).any fun su =>
    su.named && (m.event.act.rejected i su || (deliveries m.out).contains (i, .authStatus 0))

/-- Whether the box is ticked by the user's touches since it was last clear. -/
def ticked (i : ScreenId) (b : TermBox) : AppHistory → Bool
  | [] => false
  | m :: older =>
    if clears i m then false else (m.event.act.turns i b ^^ ticked i b older)

/-- The boxes of `i` are as they were, or new. -/
def KeepsBoxes (i : ScreenId) (s : App) (r : Outcome) : Prop :=
  ∀ su', r.1.signupAt i = some su' →
    (∃ su, s.signupAt i = some su ∧ su'.box = su.box) ∨
      (i, Kind.signup) ∈ loads r.2 ∧ su'.box = fun _ => false

def ClearsBoxes (i : ScreenId) (r : Outcome) : Prop :=
  ∀ su', r.1.signupAt i = some su' → su'.box = fun _ => false

end App

def Command.showsSignup : Command → Bool
  | .become (.signup _) => true
  | _ => false

namespace App

variable {t : String} {fresh : List ScreenId} {i : ScreenId}

theorem closed_keepsBoxes (i : ScreenId) : Sequence.Closed (KeepsBoxes i) where
  refl _ su' h := .inl ⟨su', h, rfl⟩
  trans hr hr' su' h := by
    rcases hr' su' h with ⟨su, hsu, hb⟩ | ⟨hl, hb⟩
    · rcases hr su hsu with ⟨su₀, h₀, hb₀⟩ | ⟨hl, hb₀⟩
      · exact .inl ⟨su₀, h₀, hb.trans hb₀⟩
      · exact .inr ⟨by simp [hl], hb.trans hb₀⟩
    · exact .inr ⟨by simp [hl], hb⟩

theorem keepsBoxes_of_screens {s : App} {r : Outcome} (h : r.1.screens i = s.screens i) :
    KeepsBoxes i s r := by
  intro su' hsu'
  rw [signupAt, h] at hsu'
  exact .inl ⟨su', hsu', rfl⟩

theorem serve_screens (s : App) (e : ServiceEvent) : (s.serve e).1.screens = s.screens := by
  unfold serve
  split <;> rfl

theorem keepsBoxes_appear (s : App) (k : Kind) (j : ScreenId) :
    KeepsBoxes i s (s.appear k j) := by
  by_cases hj : i = j
  · subst hj
    intro su' h
    have hk : k.loaded s.service.newUser = .signup su' := by
      simpa [signupAt_eq_some, appear] using h
    cases k <;> simp only [Kind.loaded, reduceCtorEq, Screen.signup.injEq] at hk
    subst hk
    exact .inr ⟨by simp [appear, loads, Output.load], funext fun b => by cases b <;> rfl⟩
  · exact keepsBoxes_of_screens (Function.update_of_ne hj ..)

/-- The boxes of `i` change only where `i` itself shows a form. -/
theorem deeds_keepsBoxes (t : String) (fresh : List ScreenId) (i : ScreenId) :
    Deeds (KeepsBoxes i) t fresh fun j c => c.showsSignup → j ≠ i where
  closed := closed_keepsBoxes i
  loads j _ k didLogin c hc hs := by
    have hn : ∀ c ∈ Kind.viewDidLoad didLogin k, c.showsSignup = false := by
      cases k <;> cases didLogin <;> decide
    rw [hn c hc] at hs
    cases hs
  deed := by
    intro s r hd
    cases hd with
    | @become j sc h =>
      by_cases hj : j = i
      · subst hj
        intro su' hsu'
        have hsc : sc = .signup su' := by simpa [signupAt_eq_some] using hsu'
        subst hsc
        exact absurd rfl (h rfl)
      · exact keepsBoxes_of_screens (Function.update_of_ne (Ne.symm hj) ..)
    | call => exact keepsBoxes_of_screens (by rw [serve_screens])
    | push => exact keepsBoxes_appear _ _ _
    | present => exact keepsBoxes_appear _ _ _
    | _ => exact keepsBoxes_of_screens rfl

/-! ### Messages -/

/-- A failed sign-up reaches the named form of `i`. -/
def failsAt (i : ScreenId) (s : App) (m : Message) : Bool :=
  m = .authStatus 0 && s.authListener = some i && (s.signupAt i).any SignupScreen.named

theorem failsAt_iff {s : App} {m : Message} : failsAt i s m ↔
    ∃ su, s.listening m = some (i, .signup su) ∧ m = .authStatus 0 ∧ su.named := by
  constructor
  · intro h
    simp only [failsAt, Bool.and_eq_true, decide_eq_true_eq, Option.any_eq_true] at h
    obtain ⟨⟨rfl, hl⟩, su, hsu, hn⟩ := h
    exact ⟨su, listening_eq_some.mpr ⟨hl, signupAt_eq_some.mp hsu⟩, rfl, hn⟩
  · rintro ⟨su, hl, rfl, hn⟩
    obtain ⟨hl, hsu⟩ := listening_eq_some.mp hl
    have ha : s.authListener = some i := hl
    simp [failsAt, ha, signupAt_eq_some.mpr hsu, hn]

theorem clearsBoxes_deliver {s : App} (hs : s.crashed = false) {m : Message}
    (h : failsAt i s m) : ClearsBoxes i (deliver t fresh s m) := by
  obtain ⟨su, hl, rfl, hn⟩ := failsAt_iff.mp h
  have hu : utf16Length su.username ≠ 0 := by simpa [SignupScreen.named] using hn
  intro su' hsu'
  simp only [deliver, hl, Screen.receive, SignupScreen.authStatus, hu, ne_eq, not_false_eq_true,
    if_true] at hsu'
  rw [runAll_cons_of_go (by rw [perform_alert]; exact hs)] at hsu'
  have he : su.clear "all" = su' := by
    simpa [signupAt_eq_some, runAll] using hsu'
  subst he
  funext b
  cases b <;> rfl

theorem keepsBoxes_deliver (s : App) {m : Message} (h : failsAt i s m = false) :
    KeepsBoxes i s (deliver t fresh s m) := by
  have hd := deeds_keepsBoxes t fresh i
  have hh : ∀ su, s.listening m = some (i, .signup su) → m = .authStatus 0 → su.named = false := by
    intro su hl hm
    by_contra hn
    have hf := failsAt_iff.mpr ⟨su, hl, hm, by simpa using hn⟩
    rw [h] at hf
    cases hf
  unfold deliver
  cases hl : s.listening m with
  | none => exact (closed_keepsBoxes i).refl s
  | some x =>
    obtain ⟨j, sc⟩ := x
    cases hc : sc.receive s.service.newUser m with
    | none =>
      simp only [hc]
      exact keepsBoxes_of_screens rfl
    | some cs =>
      simp only [hc]
      suffices hk : KeepsBoxes i s (runAll (perform t fresh j) s cs) by exact hk
      by_cases hown : j = i ∧ sc.kind = .signup
      · obtain ⟨rfl, hkind⟩ := hown
        cases sc <;> simp only [Screen.kind, reduceCtorEq] at hkind
        case signup su =>
          cases m <;> simp only [Screen.receive, reduceCtorEq, Option.some.injEq] at hc
          case authStatus status =>
            subst hc
            unfold SignupScreen.authStatus
            split_ifs with hz hu
            · -- a named form would be cleared
              have hn := hh su hl (by rw [hz])
              simp [SignupScreen.named, hu] at hn
            · exact (closed_keepsBoxes j).refl s
            · refine (closed_keepsBoxes j).andThen ?_ (hd.performAll _ ?_)
              · intro su' hsu'
                have he : ({ su with hidden := true } : SignupScreen) = su' := by
                  simpa [signupAt_eq_some] using hsu'
                subst he
                have hsu := signupAt_eq_some.mpr (listening_eq_some.mp hl).2
                exact .inl ⟨su, hsu, funext fun b => by cases b <;> rfl⟩
              · simp [Command.showsSignup]
      · refine hd.performAll s fun c hmem hshow => ?_
        cases Screen.answers_of_receive hc c hmem with
        | @shows sc' hk =>
          cases sc' <;> simp only [Command.showsSignup, Bool.false_eq_true] at hshow
          exact fun hj => hown ⟨hj, hk.symm⟩
        | _ => cases hshow

theorem failsAt_serve_iff {s : App} {e : ServiceEvent} {r : Done} (hs : s.raised = none)
    (hr : s.service.step e = some r) {m : Message} (hm : s.service.announced e = some m) :
    failsAt i s m ↔ (s.signupAt i).any SignupScreen.named ∧
      (i, .authStatus 0) ∈ deliveries (settle t fresh (s.serve e)).2 := by
  rw [deliveries_settle_serve hs hr, hm, Option.bind_some, Option.mem_toList, receiver,
    Option.map_eq_some_iff]
  constructor
  · intro h
    obtain ⟨su, hl, rfl, hn⟩ := failsAt_iff.mp h
    have hsu := signupAt_eq_some.mpr (listening_eq_some.mp hl).2
    exact ⟨by simpa [hsu] using hn, _, hl, rfl⟩
  · rintro ⟨hn, ⟨j, sc⟩, hl, hx⟩
    obtain ⟨rfl, rfl⟩ := Prod.mk.inj hx
    have ha : s.authListener = some j := (listening_eq_some.mp hl).1
    simp [failsAt, ha, hn]

/-- A service step clears the boxes if a failure reaches a named form through it. -/
theorem boxes_settle_serve (t : String) (fresh : List ScreenId) (i : ScreenId) {s : App}
    {e : ServiceEvent} {r : Done} (hs : s.raised = none) (hr : s.service.step e = some r) :
    let r' := settle t fresh (s.serve e)
    ((s.signupAt i).any SignupScreen.named ∧ (i, .authStatus 0) ∈ deliveries r'.2 →
        ClearsBoxes i r') ∧
      (¬ ((s.signupAt i).any SignupScreen.named ∧ (i, .authStatus 0) ∈ deliveries r'.2) →
        KeepsBoxes i s r') := by
  intro r'
  cases hm : s.service.announced e with
  | none =>
    have hq : r' = s.serve e := settle_serve_of_none hm fresh
    rw [hq, (quiet_serve hm).1]
    exact ⟨fun h => absurd h.2 List.not_mem_nil,
      fun _ => keepsBoxes_of_screens (by rw [serve_screens])⟩
  | some m =>
    rw [← failsAt_serve_iff hs hr hm]
    have hgo : crashed { s with service := r.1 } = false := by
      simp [crashed, hs, (Service.step_announced hr).2 (by simp [hm])]
    have hr' : r' = _ := settle_serve_of_some hs hr hm fresh
    rw [hr']
    refine ⟨fun h => clearsBoxes_deliver (i := i) hgo h, fun h => ?_⟩
    have hf : failsAt i s m = false := by simpa using h
    exact keepsBoxes_deliver (i := i) { s with service := r.1 } hf

/-! ### Events -/

/-- The box `b` of `su'`, the form of `i` after `m`, is clear or comes from before. -/
def BoxFrom (i : ScreenId) (b : TermBox) (m : AppMove) (su' : SignupScreen) : Prop :=
  if clears i m then su'.box b = false
  else ∃ su, m.before.signupAt i = some su ∧ su'.box b = (m.event.act.turns i b ^^ su.box b)

theorem box_of_keeps {m : AppMove} (hk : KeepsBoxes i m.before (m.after, m.out))
    (hfree : (i, Kind.signup) ∈ loads m.out → m.before.screens i = none)
    (hn : ∀ su, m.before.signupAt i = some su → (∀ b, m.event.act.turns i b = false) ∧
      (su.named → m.event.act.rejected i su = false ∧ (i, .authStatus 0) ∉ deliveries m.out))
    {su' : SignupScreen} (hsu' : m.after.signupAt i = some su') (b : TermBox) :
    BoxFrom i b m su' := by
  rcases hk su' hsu' with ⟨su, hsu, hb⟩ | ⟨hl, hb⟩
  · obtain ⟨hturns, hrej⟩ := hn su hsu
    have hl : (i, Kind.signup) ∉ loads m.out := by
      intro hl
      rw [signupAt_eq_some, hfree hl] at hsu
      cases hsu
    have hc : clears i m = false := by
      cases hnamed : su.named with
      | false => simp [clears, hl, hsu, hnamed]
      | true => simp [clears, hl, hsu, hrej hnamed]
    simp [BoxFrom, hc, hb, hturns, hsu]
  · simp [BoxFrom, clears, hl, hb]

end App

theorem SignupScreen.box_of_check {su su' : SignupScreen} {aliased : Bool} {text : String}
    (h : su.check aliased = some (su', text)) (b : TermBox) :
    su'.box b = if su.named then false else su.box b := by
  unfold check at h
  split_ifs at h with h₁ h₂ h₃ h₄ <;> obtain ⟨rfl, -⟩ := Prod.mk.inj (Option.some.inj h) <;>
    simp only [named, h₁, ne_eq, not_true_eq_false, not_false_eq_true, decide_false, decide_true,
      Bool.false_eq_true, if_true, if_false] <;> cases b <;> rfl

theorem touched_signup {su : SignupScreen} {touch : Touch} {cs : List Command}
    (h : (Screen.signup su).touched touch = some cs) :
    (∃ su', cs = [.become (.signup su')] ∧ (∀ b, su'.box b = (touch.turns b ^^ su.box b)) ∧
        ∀ aliased, touch ≠ .signupButton aliased) ∨
      touch = .dismiss ∧ cs = [.pop] ∨
      ∃ aliased, touch = .signupButton aliased ∧ cs = su.signupButton aliased := by
  cases touch <;> simp only [Screen.touched, reduceCtorEq, Option.some.injEq] at h
  case typed field text =>
    refine .inl ?_
    cases field <;> simp only [Screen.typed, Option.map_none, Option.map_some, reduceCtorEq,
      Option.some.injEq] at h <;>
      exact ⟨_, h.symm, fun b => by cases b <;> simp [Touch.turns, SignupScreen.box], by simp⟩
  case dismiss => exact .inr (.inl ⟨rfl, h.symm⟩)
  case checkbox00 | checkbox01 =>
    exact .inl ⟨_, h.symm, fun b => by cases b <;> simp [Touch.turns, SignupScreen.box], by simp⟩
  case signupButton aliased =>
    split_ifs at h
    exact .inr (.inr ⟨aliased, rfl, (Option.some.inj h).symm⟩)

namespace App

theorem perform_pop_screens (s : App) :
    (perform t fresh i s .pop).1.screens = s.screens := by
  rcases perform_pop t fresh i s with he | ⟨j, k, stack, -, he⟩ <;> rw [he]

/-- What a touch of its own does to a form. -/
theorem box_touched {s : App} (hs : s.crashed = false) {su : SignupScreen} {touch : Touch}
    {cs : List Command} (hsu : s.signupAt i = some su)
    (hcs : (Screen.signup su).touched touch = some cs) {su' : SignupScreen}
    (hsu' : (runAll (perform t fresh i) s cs).1.signupAt i = some su') (b : TermBox) :
    su'.box b = if su.named && (Act.touch i touch).rejected i su then false
      else (touch.turns b ^^ su.box b) := by
  have hsame : ∀ {cs'}, (runAll (perform t fresh i) s cs').1.screens = s.screens →
      (runAll (perform t fresh i) s cs').1.signupAt i = some su' → su' = su := by
    intro cs' he h
    rw [signupAt, he] at h
    exact Option.some.inj (h.symm.trans hsu)
  rcases touched_signup hcs with ⟨su₁, rfl, hb, hno⟩ | ⟨rfl, rfl⟩ | ⟨aliased, rfl, rfl⟩
  · obtain rfl : su₁ = su' := by simpa [signupAt_eq_some, runAll] using hsu'
    have hr : (Act.touch i touch).rejected i su = false := by
      cases touch <;> first | rfl | exact absurd rfl (hno _)
    rw [hr, hb]
    simp
  · obtain rfl := hsame (by rw [runAll, Sequence.runAll_singleton, perform_pop_screens]) hsu'
    simp [Act.rejected, Touch.turns]
  · cases hc : su.check aliased with
    | none =>
      have he : (runAll (perform t fresh i) s (su.signupButton aliased)).1.screens =
          s.screens := by
        simp only [SignupScreen.signupButton, hc]
        split_ifs
        · rw [runAll, Sequence.runAll_singleton, perform_call, serve_screens]
        · rw [runAll, Sequence.runAll_singleton, perform_alert]
      obtain rfl := hsame he hsu'
      simp [Act.rejected, hc, Touch.turns]
    | some x =>
      simp only [SignupScreen.signupButton, hc] at hsu'
      rw [runAll_cons_of_go (by rw [perform_alert]; exact hs)] at hsu'
      obtain rfl : x.1 = su' := by simpa [signupAt_eq_some, runAll] using hsu'
      rw [SignupScreen.box_of_check hc]
      simp [Act.rejected, hc, Touch.turns]

theorem box_of_served {m : AppMove} {e : ServiceEvent} {r : Done} (hs : m.before.raised = none)
    (hr : m.before.service.step e = some r) (he : (m.after, m.out) =
      settle t fresh ((m.before.reserve m.event).serve e))
    (hfree : (i, Kind.signup) ∈ loads m.out → m.before.screens i = none)
    (hturns : ∀ b, m.event.act.turns i b = false)
    (hrej : ∀ su, m.event.act.rejected i su = false)
    {su' : SignupScreen} (hsu' : m.after.signupAt i = some su') (b : TermBox) :
    BoxFrom i b m su' := by
  obtain ⟨hclear, hkeep⟩ := boxes_settle_serve t fresh i (s := m.before.reserve m.event) hs hr
  rw [← he] at hclear hkeep
  by_cases hf : (m.before.signupAt i).any SignupScreen.named ∧
      (i, .authStatus 0) ∈ deliveries m.out
  · obtain ⟨su, hsu, hn⟩ := (Option.any_eq_true _ _).mp hf.1
    have hc : clears i m = true := by simp [clears, hsu, hn, hf.2]
    simp [BoxFrom, hc, hclear hf su' hsu']
  · refine box_of_keeps (hkeep hf) hfree (fun su hsu => ⟨hturns, fun hn => ⟨hrej su, fun hd => ?_⟩⟩)
      hsu' b
    exact hf ⟨by simpa [hsu] using hn, hd⟩

theorem turns_of_not_touch {a : Act} (h : ∀ touch, a ≠ .touch i touch) (b : TermBox) :
    a.turns i b = false := by
  cases a <;> first | rfl | skip
  case touch j touch =>
    have hj : j ≠ i := fun hj => h touch (by rw [hj])
    simp [Act.turns, hj]

theorem rejected_of_not_touch {a : Act} (h : ∀ touch, a ≠ .touch i touch) (su : SignupScreen) :
    a.rejected i su = false := by
  cases a <;> first | rfl | skip
  case touch j touch =>
    have hj : j ≠ i := fun hj => h touch (by rw [hj])
    cases touch <;> simp [Act.rejected, hj]

theorem keepsBoxes_tell (s : App) (v : Uid) (o : Nat) : KeepsBoxes i s (tell t fresh v s o) := by
  cases hr : s.service.step (.childAdded o v) with
  | none => exact keepsBoxes_of_screens (by simp [tell, serve, hr, settle, andThen, runAll])
  | some r =>
    cases hs : s.raised with
    | none =>
      refine (boxes_settle_serve t fresh i hs hr).2 fun h => ?_
      have ha := mem_deliveries_settle_serve h.2
      obtain ⟨d, -, hd⟩ := Option.map_eq_some_iff.mp ha
      cases hd
    | some x =>
      rw [tell, serve_of_step hr, settle, andThen,
        Sequence.andThen_of_stop crashed (by simp [crashed, hs])]
      exact keepsBoxes_of_screens rfl

theorem box_of_touch {m : AppMove} (hm : machine.Fires m)
    (hfree : (i, Kind.signup) ∈ loads m.out → m.before.screens i = none) {j : ScreenId}
    {touch : Touch} (ha : m.event.act = .touch j touch)
    {su' : SignupScreen} (hsu' : m.after.signupAt i = some su') (b : TermBox) :
    BoxFrom i b m su' := by
  have htaken := fires_taken hm
  obtain ⟨sc, cs, -, hsc, hcs, hr⟩ := htaken.touch ha
  rcases settle_touched (s := m.before.reserve m.event) htaken.serviceRaised hcs
    m.event.stringTime [m.event.fresh, m.event.fresh'] j with
    ⟨keychain, rfl, hstep, he⟩ | ⟨-, hq, he⟩
  · exact box_of_served htaken.raised hstep (hr.trans he) hfree
      (fun b => by simp [ha, Act.turns, Touch.turns]) (fun su => by simp [ha, Act.rejected]) hsu' b
  rw [he] at hr
  have hdel : deliveries m.out = [] := by
    rw [show m.out = _ from congrArg Prod.snd hr]
    exact hq.1
  by_cases hown : j = i ∧ sc.kind = .signup
  · obtain ⟨rfl, hkind⟩ := hown
    cases sc <;> simp only [Screen.kind, reduceCtorEq] at hkind
    case signup su =>
      have hsu : m.before.signupAt j = some su := signupAt_eq_some.mpr hsc
      have hl : (j, Kind.signup) ∉ loads m.out := by
        intro hl
        rw [hfree hl] at hsc
        cases hsc
      have hclears : clears j m = (su.named && (Act.touch j touch).rejected j su) := by
        simp [clears, hl, hsu, hdel, ha]
      have hturns : m.event.act.turns j b = touch.turns b := by simp [ha, Act.turns]
      rw [show m.after = _ from congrArg Prod.fst hr] at hsu'
      have hb := box_touched htaken.running hsu hcs hsu' b
      rw [BoxFrom, hclears, hturns]
      split_ifs at hb ⊢
      · exact hb
      · exact ⟨su, hsu, hb⟩
  · have hk : KeepsBoxes i m.before (m.after, m.out) := by
      rw [hr]
      refine (deeds_keepsBoxes _ _ i).performAll (m.before.reserve m.event) fun c hmem hshow => ?_
      cases Screen.runs_of_touched hcs c hmem with
      | @shows sc' hk =>
        cases sc' <;> simp only [Command.showsSignup, Bool.false_eq_true] at hshow
        exact fun hj => hown ⟨hj, hk.symm⟩
      | _ => cases hshow
    refine box_of_keeps hk hfree (fun su hsu => ?_) hsu' b
    have hact : ∀ touch, m.event.act ≠ .touch i touch := by
      rintro touch' he'
      obtain ⟨rfl, -⟩ := Act.touch.inj (ha.symm.trans he')
      rw [signupAt_eq_some, hsc, Option.some.injEq] at hsu
      exact hown ⟨rfl, by rw [hsu]; rfl⟩
    exact ⟨turns_of_not_touch hact, fun _ => ⟨rejected_of_not_touch hact su, by simp [hdel]⟩⟩

/-- What one event does to a box. -/
theorem box_step {m : AppMove} (hm : machine.Fires m)
    (hfree : (i, Kind.signup) ∈ loads m.out → m.before.screens i = none)
    {su' : SignupScreen} (hsu' : m.after.signupAt i = some su') (b : TermBox) :
    BoxFrom i b m su' := by
  have htaken := fires_taken hm
  have hd := fun fresh => deeds_keepsBoxes m.event.stringTime fresh i
  have hc := closed_keepsBoxes i
  -- what holds of an event that neither touches the screen nor reports to it
  have hother : (∀ touch, m.event.act ≠ .touch i touch) →
      (i, Message.authStatus 0) ∉ deliveries m.out →
      KeepsBoxes i m.before (m.after, m.out) → BoxFrom i b m su' := by
    intro ha hd hk
    exact box_of_keeps hk hfree (fun su _ => ⟨turns_of_not_touch ha, fun _ =>
      ⟨rejected_of_not_touch ha su, hd⟩⟩) hsu' b
  have hquiet : reporting m.event = none → (∀ v, m.event.act ≠ .childAdded v) →
      (i, Message.authStatus 0) ∉ deliveries m.out := by
    intro hrep hv
    rw [deliveries_step hm hv, hrep]
    exact List.not_mem_nil
  have hdoes := htaken.does
  generalize hr : (m.after, m.out) = r at hdoes hother
  cases hdoes with
  | touch ha => exact box_of_touch hm hfree ha hsu' b
  | launch ha =>
    have hrep : reporting m.event = none := by simp [reporting, ha, Act.report]
    refine hother (by simp [ha]) (hquiet hrep (by simp [ha])) ?_
    refine hc.andThen (s := m.before) (keepsBoxes_appear (i := i) _ .menu m.event.fresh) ?_
    refine (hd _).performAll _ fun c hmem => ?_
    exact (hd [m.event.fresh]).loads m.event.fresh List.mem_cons_self .menu _ c hmem
  | pop ha =>
    have hrep : reporting m.event = none := by simp [reporting, ha, Act.report]
    exact hother (by simp [ha]) (hquiet hrep (by simp [ha])) (keepsBoxes_of_screens rfl)
  | @release j ha =>
    have hrep : reporting m.event = none := by simp [reporting, ha, Act.report]
    refine hother (by simp [ha]) (hquiet hrep (by simp [ha])) fun su hsu => ?_
    by_cases hj : i = j
    · subst hj
      simp [signupAt_eq_some] at hsu
    · exact keepsBoxes_of_screens (Function.update_of_ne hj ..) su hsu
  | @timer j sc ha =>
    have hrep : reporting m.event = none := by simp [reporting, ha, Act.report]
    refine hother (by simp [ha]) (hquiet hrep (by simp [ha])) ?_
    refine (hd _).performAll { m.before.reserve m.event with
      timers := m.before.timers.erase j } fun c hmem hshow => ?_
    have hn : ∀ c ∈ sc.kind.deferred, c.showsSignup = false := by
      cases sc <;> simp [Screen.kind, Kind.deferred, Command.showsSignup]
    rw [hn c hmem] at hshow
    cases hshow
  | silent ha =>
    have hact : ∀ touch, m.event.act ≠ .touch i touch := by
      rintro touch he
      rw [he] at ha
      cases ha
    have hv : ∀ v, m.event.act ≠ .childAdded v := by
      rintro v he
      rw [he] at ha
      cases ha
    exact hother hact (hquiet (reporting_of_silent ha) hv)
      (keepsBoxes_of_screens (congrFun (serve_screens _ _) i))
  | report ha hstep =>
    have hact : ∀ touch, m.event.act ≠ .touch i touch := by
      rintro touch he
      rw [he] at ha
      cases ha
    exact box_of_served htaken.raised hstep hr hfree (turns_of_not_touch hact)
      (rejected_of_not_touch hact) hsu' b
  | @childAdded v ha =>
    have hdel : (i, Message.authStatus 0) ∉ deliveries m.out := by
      intro hmem
      rw [show m.out = _ from congrArg Prod.snd hr] at hmem
      obtain ⟨p, hp⟩ := mem_deliveries_childAdded hmem
      cases hp
    exact hother (by simp [ha]) hdel
      (hc.runAll (fun s o _ => keepsBoxes_tell s v o) (m.before.reserve m.event))

/-- In every run a form shows its boxes as the touches and clearings so far have left them. -/
theorem box_eq_ticked {s₀ s : App} {h : AppHistory} (hl : Launch s₀) (hr : machine.Run s₀ h s)
    {su : SignupScreen} (hsu : s.signupAt i = some su) (b : TermBox) :
    su.box b = ticked i b h := by
  induction hr generalizing su with
  | nil =>
    rw [signupAt_eq_some, hl.screens] at hsu
    cases hsu
  | @cons h m hr hm ih =>
    have hfree : (i, Kind.signup) ∈ loads m.out → m.before.screens i = none := by
      intro hload
      have hused := not_mem_used_of_loads hm hload
      cases hsc : m.before.screens i with
      | none => rfl
      | some sc => exact absurd ((addressed_of_run hl hr).screens i (by rw [hsc]; rfl)) hused
    have hb := box_step hm hfree hsu b
    rw [ticked]
    unfold BoxFrom at hb
    split_ifs at hb ⊢
    · exact hb
    · obtain ⟨su₀, hsu₀, hb⟩ := hb
      rw [hb, ih hsu₀]

end App

end Mioto
