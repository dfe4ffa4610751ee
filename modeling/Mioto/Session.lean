import Mioto.Reactions

/-! Two sessions of one account, on the same database and with the same events, after
different pasts. They can tell their pasts apart by the cache, by the token and by the
observers that were registered before, and by nothing else. -/

namespace Mioto

def Touch.reads : Touch → Key → Bool
  | .singleTapping, f => f == .mUserImgUrl
  | .updateData, f => f.carried
  | .ggLinking password, f => utf16Length password != 0 && f == .mUserEmail
  | _, _ => false

/-- The screens that a signed-in user sees. -/
def Kind.ofSession : Kind → Bool
  | .profile | .edit | .viewProfile | .friends => true
  | _ => false

namespace App

/-- The fields of the cached profile that an act uses before it has fetched them: those
of a touch, and those that a screen shows when its fetch has failed. -/
def reads (s : App) : Act → Key → Bool
  | .touch _ touch, f => touch.reads f
  | .complete k, f =>
    match (s.service.replies[k]?).map Waiting.reply, s.listening (.profileDataRecieved 0) with
    | some (.fetchCancelled _), some (_, sc) => sc.reads (.profileDataRecieved 0) f
    | _, _ => false
  | _, _ => false

def readsToken (s : App) (a : Act) : Bool := (a.report "").any s.service.readsToken

/-- An act of the session: the user acts on its screens, its screens are released or
their timers end, the services answer, and the database changes. -/
def OfSession (old : ScreenId → Bool) (a b : App) : Act → Bool
  | .launch => false
  | .touch i _ => !old i && (a.screens i).all (·.kind.ofSession)
  | .pop => a.stack.head?.all (!old ·) && b.stack.head?.all (!old ·)
  | .release i | .timer i => !old i
  | _ => true

/-- What the event takes from before the session is the same on both sides. -/
structure ReadsSame (a b : App) (e : Act) : Prop where
  cache : ∀ f, a.reads e f → a.service.cached f = b.service.cached f
  token : a.readsToken e → a.service.currentAccessToken = b.service.currentAccessToken
  observers : ∀ v, e = .childAdded v → a.noticed v = b.noticed v

section

variable {old : ScreenId → Bool} {K : Key → Prop} {a b : App}

theorem touched_reads {sc : Screen} {touch : Touch} {cs : List Command}
    (h : sc.touched touch = some cs) (hk : sc.kind.ofSession) :
    ∀ c ∈ cs, c.leaves = false ∧ ∀ f, c.reads f → touch.reads f := by
  intro c hc
  cases Screen.runs_of_touched h c hc with
  | @calls c hcall =>
    refine ⟨rfl, fun f hf => ?_⟩
    cases c with
    | updateDataWithName =>
      cases touch with
      | updateData => exact hf
      | _ => cases hcall
    | emailLinking =>
      cases touch with
      | ggLinking password => exact Bool.and_eq_true_iff.mpr ⟨hcall, hf⟩
      | _ => cases hcall
    | _ => cases hf
  | @push k hp =>
    refine ⟨rfl, fun f hf => ?_⟩
    cases k with
    | viewProfile => rwa [hp rfl]
    | _ => cases hf
  | pop hs => rcases hs with hs | hs <;> rw [hs] at hk <;> cases hk
  | presentForgotPassword hs =>
    rw [hs] at hk
    cases hk
  | _ => exact ⟨rfl, fun _ hf => by cases hf⟩

theorem profileData_of_reads {sc : Screen} {m : Message} {f : Key} (h : sc.reads m f) :
    ∃ status, m = .profileDataRecieved status := by
  cases m with
  | profileDataRecieved status => exact ⟨status, rfl⟩
  | _ => cases sc <;> cases h

theorem announced_profileData {s : Service} {r : Reply} {status : Int}
    (h : r.announced s = some (.profileDataRecieved status)) :
    (∃ u d, r = .fetched u (.dict d)) ∨ status = 0 ∧ ∃ u, r = .fetchCancelled u := by
  unfold Reply.announced at h
  split at h <;> (try split_ifs at h) <;> cases h
  · exact .inl ⟨_, _, rfl⟩
  · exact .inr ⟨rfl, _, rfl⟩

theorem step_act {s : App} {e : Event} {r : Outcome} (h : s.step e = some r) :
    s.crashed = false ∧ s.supplies e ∧
      (s.reserve e).act e.stringTime [e.fresh, e.fresh'] e.act = some r := by
  unfold step at h
  split_ifs at h with hc
  rw [not_or, not_not, Bool.not_eq_true] at hc
  exact ⟨hc.1, hc.2, h⟩

theorem Alike.touched (h : Alike old K a b) (hc : a.crashed = false) (t : String)
    {fresh : List ScreenId} (hf : ∀ j ∈ fresh, old j = false) {i : ScreenId} (hi : old i = false)
    {sc : Screen} {touch : Touch} {cs : List Command} (hcs : sc.touched touch = some cs)
    (hk : sc.kind.ofSession) (hr : ∀ f, touch.reads f → K f) :
    Same old K (settle t fresh (runAll (App.perform t fresh i) a cs))
      (settle t fresh (runAll (App.perform t fresh i) b cs)) := by
  obtain ⟨hs, hn⟩ : a.raised = none ∧ a.service.raised = none := by simpa [App.crashed] using hc
  by_cases hl : ∃ keychain, touch = .logoutButton keychain
  · obtain ⟨keychain, rfl⟩ := hl
    have hstep : a.service.step (.call i t (.logout keychain)) =
        some (a.service.logout keychain) := by simp [Service.step, hn, Service.call]
    have hstep' : b.service.step (.call i t (.logout keychain)) =
        some (b.service.logout keychain) := by
      simp [Service.step, ← h.service.raised, hn, Service.call]
    simp only [touched_logoutButton hcs, runAll, Sequence.runAll_singleton, perform_call]
    refine h.settle_serve hs t hf hstep hstep' (h.service.call i t (c := .logout keychain) ?_) ?_
    · intro f hf
      cases hf
    · rintro m ⟨j, sc⟩ hm - f hrf
      obtain rfl := Option.some.inj hm
      cases sc <;> simp [Screen.reads] at hrf
  · rw [not_exists] at hl
    have hq : ∀ s, settle t fresh (runAll (App.perform t fresh i) s cs) =
        runAll (App.perform t fresh i) s cs := fun s =>
      settle_of_silent (quiet_performAll t fresh i s fun c hc => (touched_calls hcs hl c hc).1).2 _
    rw [hq, hq]
    exact h.performAll t hf hi fun c hc =>
      ⟨(touched_reads hcs hk c hc).1, fun f hrf => hr f ((touched_reads hcs hk c hc).2 f hrf)⟩

theorem Alike.reported (h : Alike old K a b) (hs : a.raised = none) (t : String)
    {fresh : List ScreenId} (hf : ∀ j ∈ fresh, old j = false) {e : Act} {se : ServiceEvent}
    (he : e.report t = some se) {r r' : Done} (hr : a.service.step se = some r)
    (hr' : b.service.step se = some r') (hK : ∀ f, a.reads e f → K f)
    (ht : a.readsToken e → a.service.currentAccessToken = b.service.currentAccessToken) :
    Same old (fun f => K f ∨ (a.service.fetches se).isSome) (settle t fresh (a.serve se))
      (settle t fresh (b.serve se)) := by
  have hcases := Act.report_eq_some he
  have hse : ∀ o v, se ≠ .childAdded o v := by
    rintro o v rfl
    rcases hcases with ⟨k, -, hk⟩ | ⟨k, q, -, hk⟩ <;> cases hk
  have hreads : ∀ f, se.reads f → K f := by
    intro f hf
    rcases hcases with ⟨k, -, rfl⟩ | ⟨k, q, -, rfl⟩ <;> cases hf
  have htok : a.service.readsToken se → a.readsToken e := by
    intro hk
    rcases hcases with ⟨k, rfl, rfl⟩ | ⟨k, q, rfl, rfl⟩ <;> exact hk
  refine h.settle_serve hs t hf hr hr' (h.service.step hr hr' hse hreads fun hk => ht (htok hk)) ?_
  rintro m ⟨j, sc⟩ hm hl f hrf
  rcases hcases with ⟨k, rfl, rfl⟩ | ⟨k, q, rfl, rfl⟩
  · obtain ⟨w, hw, hm⟩ := Option.bind_eq_some_iff.mp hm
    obtain ⟨status, rfl⟩ := profileData_of_reads hrf
    rcases announced_profileData hm with ⟨u, d, hq⟩ | ⟨rfl, u, hq⟩
    · exact .inr (by simp [Service.fetches, hw, hq, Reply.fetchedRecord])
    · refine .inl (hK f ?_)
      simpa [App.reads, hw, hq, hl] using hrf
  · rw [Service.announced_dialog hm] at hrf
    cases sc <;> simp [Screen.reads] at hrf

theorem Alike.silent (h : Alike old K a b) {e : Act} {se : ServiceEvent}
    (he : e.silent = some se) {r r' : Done} (hr : a.service.step se = some r)
    (hr' : b.service.step se = some r') :
    Same old (fun _ => False) (a.serve se) (b.serve se) := by
  have hcases := Act.silent_eq_some he
  have hse : ∀ o v, se ≠ .childAdded o v := by
    rintro o v rfl
    rcases hcases with ⟨k, r, -, hk⟩ | ⟨uid, d, -, hk⟩ | ⟨uid, k, v, -, hk⟩ <;> cases hk
  have hreads : ∀ f, se.reads f → K f := by
    intro f hf
    rcases hcases with ⟨k, r, -, rfl⟩ | ⟨uid, d, -, rfl⟩ | ⟨uid, k, v, -, rfl⟩ <;> cases hf
  have htok : a.service.readsToken se = false := by
    rcases hcases with ⟨k, r, -, rfl⟩ | ⟨uid, d, -, rfl⟩ | ⟨uid, k, v, -, rfl⟩ <;> rfl
  exact (h.serve hr hr' (h.service.step hr hr' hse hreads fun hk => by simp [htok] at hk)).weaken

theorem deferred_reads (k : Kind) :
    ∀ c ∈ k.deferred, c.leaves = false ∧ ∀ f, c.reads f = false := by
  cases k <;> decide

theorem Alike.popped (h : Alike old K a b) {i j i' j' : ScreenId} {stack stack' : List ScreenId}
    (hst : a.stack = i :: j :: stack) (hst' : b.stack = i' :: j' :: stack') (hi : old i = false)
    (hi' : old i' = false) :
    Alike old K { a with stack := j :: stack } { b with stack := j' :: stack' } := by
  have hfil := h.stack
  rw [hst, hst', List.filter_cons_of_pos (a := i) (by simp [hi]),
    List.filter_cons_of_pos (a := i') (by simp [hi'])] at hfil
  exact { h with stack := (List.cons.inj hfil).2 }

theorem Alike.fired (h : Alike old K a b) (i : ScreenId) :
    Alike old K { a with timers := a.timers.erase i } { b with timers := b.timers.erase i } := by
  have ht : (a.timers.erase i).filter (!old ·) = (b.timers.erase i).filter (!old ·) := by
    rw [← List.erase_filter, ← List.erase_filter, h.timers]
  exact { h with timers := ht }

theorem Alike.step (h : Alike old (fun _ => False) a b) {e : Event} {r r' : Outcome}
    (ha : a.step e = some r) (hb : b.step e = some r')
    (hf : ∀ j ∈ [e.fresh, e.fresh'], old j = false)
    (hs : OfSession old a b e.act) (hc : ReadsSame a b e.act) :
    Same old (fun _ => False) r r' := by
  obtain ⟨hca, -, ha⟩ := step_act ha
  obtain ⟨hcb, -, hb⟩ := step_act hb
  obtain ⟨hs', hn⟩ : a.raised = none ∧ a.service.raised = none := by simpa [App.crashed] using hca
  have hna : (a.reserve e).service.raised = none := hn
  have hnb : (b.reserve e).service.raised = none := h.service.raised.symm.trans hn
  have hR : Alike old (fun f => a.reads e.act f) (a.reserve e) (b.reserve e) :=
    { h.agreeing hc.cache with }
  have hreported : ∀ {se r r'}, e.act.report e.stringTime = some se →
      a.service.step se = some r → b.service.step se = some r' →
      Same old (fun _ => False) (settle e.stringTime [e.fresh, e.fresh'] ((a.reserve e).serve se))
        (settle e.stringTime [e.fresh, e.fresh'] ((b.reserve e).serve se)) :=
    fun he hr hr' => (hR.reported hs' e.stringTime hf he hr hr' (fun _ hrf => hrf) hc.token).weaken
  cases hact : e.act <;> simp only [hact, act] at ha hb hs
  case touch i touch =>
    split_ifs at ha hb
    obtain ⟨hi, hk⟩ : old i = false ∧ (a.screens i).all (·.kind.ofSession) := by
      simpa [OfSession] using hs
    obtain ⟨cs, hcs, rfl⟩ := Option.map_eq_some_iff.mp ha
    obtain ⟨cs', hcs', rfl⟩ := Option.map_eq_some_iff.mp hb
    have hsc : a.screens i = b.screens i := h.screens i hi
    obtain rfl : cs = cs' := by
      refine Option.some.inj (hcs.symm.trans (Eq.trans ?_ hcs'))
      simp only [reserve, hsc]
    obtain ⟨sc, hsc, hcs⟩ := Option.bind_eq_some_iff.mp hcs
    have hk : sc.kind.ofSession := by
      rw [show a.screens i = some sc from hsc] at hk
      exact hk
    refine (hR.touched hca e.stringTime hf hi hcs hk fun f hrf => ?_).weaken
    rw [hact]
    exact hrf
  case launch => cases hs
  case pop =>
    split at ha <;> cases ha
    next i j stack hst =>
    split at hb <;> cases hb
    next i' j' stack' hst' =>
    obtain ⟨hi, hi'⟩ : old i = false ∧ old i' = false := by
      simpa [OfSession, show a.stack = _ from hst, show b.stack = _ from hst'] using hs
    exact Same.weaken ⟨hR.popped hst hst' hi hi', rfl⟩
  case release i =>
    split_ifs at ha hb
    obtain rfl := Option.some.inj ha
    obtain rfl := Option.some.inj hb
    exact Same.weaken ⟨hR.become i none, rfl⟩
  case timer i =>
    have hi : old i = false := by simpa [OfSession] using hs
    split_ifs at ha hb
    obtain ⟨sc, hsc, rfl⟩ := Option.map_eq_some_iff.mp ha
    obtain ⟨sc', hsc', rfl⟩ := Option.map_eq_some_iff.mp hb
    obtain rfl : sc = sc' := Option.some.inj (hsc.symm.trans ((h.screens i hi).trans hsc'))
    refine ((hR.fired i).performAll e.stringTime hf hi fun c hc => ?_).weaken
    obtain ⟨hl, hn⟩ := deferred_reads sc.kind c hc
    exact ⟨hl, fun f hrf => by simp [hn f] at hrf⟩
  case answer k q =>
    split_ifs at ha hb with hra hrb
    obtain rfl := Option.some.inj ha
    obtain rfl := Option.some.inj hb
    exact hR.silent (e := .answer k q) rfl (Option.some_get hra).symm (Option.some_get hrb).symm
  case complete k =>
    split_ifs at ha hb with hra hrb
    obtain rfl := Option.some.inj ha
    obtain rfl := Option.some.inj hb
    exact hreported (by rw [hact]; rfl) (Option.some_get hra).symm (Option.some_get hrb).symm
  case dialog k q =>
    split_ifs at ha hb with hra hrb
    obtain rfl := Option.some.inj ha
    obtain rfl := Option.some.inj hb
    exact hreported (by rw [hact]; rfl) (Option.some_get hra).symm (Option.some_get hrb).symm
  case childAdded v =>
    obtain rfl := Option.some.inj ha
    obtain rfl := Option.some.inj hb
    exact (hR.agreeing fun _ => False.elim).childAdded hca hf (hc.observers v hact)
  case remoteRecord u d =>
    obtain rfl := Option.some.inj ha
    obtain rfl := Option.some.inj hb
    exact hR.silent (e := .remoteRecord u d) rfl (by simp only [Service.step, hna]; rfl)
      (by simp only [Service.step, hnb]; rfl)
  case remoteField u k v =>
    obtain rfl := Option.some.inj ha
    obtain rfl := Option.some.inj hb
    exact hR.silent (e := .remoteField u k v) rfl (by simp only [Service.step, hna]; rfl)
      (by simp only [Service.step, hnb]; rfl)

/-! ### Sessions -/

/-- The account `u` has just signed in: the screen `p` that shows its profile has made
the only request under way. -/
structure SignedIn (u : Uid) (p : ScreenId) (s : App) : Prop where
  reached : ∃ s₀ h, Launch s₀ ∧ machine.Run s₀ h s
  crashed : s.crashed = false
  currentUser : s.service.currentUser = some u
  pending : s.service.pending = [⟨.fetch u, p⟩]
  replies : s.service.replies = []
  fireBaseListener : s.fireBaseListener = some p
  authListener : s.authListener = some p
  profile : s.screens p = some (.profile .loaded)
  stack : s.stack.head? = some p
  under : p ∉ s.stack.tail
  presented : s.presented ≠ some p
  timers : p ∉ s.timers

/-- The addresses of the screens from before the session. -/
def before (a b : App) (p : ScreenId) (i : ScreenId) : Bool :=
  decide ((i ∈ a.used ∨ i ∈ b.used) ∧ i ≠ p)

/-- The two sessions have the same screens, stacked in the same order. -/
structure LooksSame (old : ScreenId → Bool) (a b : App) : Prop where
  screens : ∀ i, old i = false → a.screens i = b.screens i
  stack : a.stack.filter (!old ·) = b.stack.filter (!old ·)

end

end App

abbrev TwinMove := Move (App × App) (Side Event) (List Output × List Output)

abbrev TwinHistory := List TwinMove

namespace App

/-- An event of the session, the same on both sides; or an earlier screen is released,
which need not happen on both. -/
def InSession (old : ScreenId → Bool) (m : TwinMove) : Bool :=
  match m.event with
  | .both e => OfSession old m.before.1 m.before.2 e.act
  | .left e | .right e =>
    match e.act with
    | .release i => old i
    | _ => false

/-- No event of the session takes different things from before it. -/
def ReadsNothingOld (h : TwinHistory) : Prop :=
  ∀ m ∈ h, ∀ e ∈ m.event.shared, ReadsSame m.before.1 m.before.2 e.act

section

variable {u : Uid} {p : ScreenId} {a b s : App} {old : ScreenId → Bool}

theorem SignedIn.addressed (h : SignedIn u p s) : Addressed (· ∈ s.used) s := by
  obtain ⟨_, _, hl, hr⟩ := h.reached
  exact addressed_of_run hl hr

theorem eq_of_not_old (ho : ∀ i ∈ s.used, i ≠ p → old i = true) {i : ScreenId}
    (hi : old i = false) (hu : i ∈ s.used) : i = p := by
  by_contra hne
  rw [ho i hu hne] at hi
  cases hi

theorem SignedIn.filter_stack (h : SignedIn u p s) (ho : ∀ i ∈ s.used, i ≠ p → old i = true)
    (hp : old p = false) : s.stack.filter (!old ·) = [p] := by
  obtain ⟨older, hst⟩ := List.head?_eq_some_iff.mp h.stack
  have hunder := h.under
  rw [hst, List.tail_cons] at hunder
  rw [hst, List.filter_cons_of_pos (by simp [hp]), List.filter_eq_nil_iff.mpr]
  intro i hi hn
  have hu := h.addressed.stack i (by simp [hst, hi])
  obtain rfl := eq_of_not_old ho (by simpa using hn) hu
  exact hunder hi

theorem SignedIn.filter_timers (h : SignedIn u p s) (ho : ∀ i ∈ s.used, i ≠ p → old i = true) :
    s.timers.filter (!old ·) = [] := by
  refine List.filter_eq_nil_iff.mpr fun i hi hn => ?_
  obtain rfl := eq_of_not_old ho (by simpa using hn) (h.addressed.timers i hi)
  exact h.timers hi

theorem SignedIn.not_presented (h : SignedIn u p s) (ho : ∀ i ∈ s.used, i ≠ p → old i = true)
    {i : ScreenId} (hi : old i = false) : s.presented ≠ some i := by
  intro hpr
  obtain rfl := eq_of_not_old ho hi (h.addressed.presented i hpr)
  exact h.presented hpr

theorem SignedIn.screens (h : SignedIn u p s) (ho : ∀ i ∈ s.used, i ≠ p → old i = true)
    {i : ScreenId} (hi : old i = false) :
    s.screens i = if i = p then some (.profile .loaded) else none := by
  split
  · next he => rw [he, h.profile]
  · next hne =>
    cases hsc : s.screens i with
    | none => rfl
    | some sc => exact absurd (eq_of_not_old ho hi (h.addressed.screens i (by simp [hsc]))) hne

theorem SignedIn.alike (ha : SignedIn u p a) (hb : SignedIn u p b)
    (hu : a.service.users = b.service.users) :
    Alike (before a b p) (fun _ => False) a b := by
  have hoa : ∀ i ∈ a.used, i ≠ p → before a b p i = true := fun i hi hne =>
    decide_eq_true ⟨.inl hi, hne⟩
  have hob : ∀ i ∈ b.used, i ≠ p → before a b p i = true := fun i hi hne =>
    decide_eq_true ⟨.inr hi, hne⟩
  have hp : before a b p p = false := by simp [before]
  obtain ⟨hra, hsa⟩ : a.raised = none ∧ a.service.raised = none := by
    simpa [App.crashed] using ha.crashed
  obtain ⟨hrb, hsb⟩ : b.raised = none ∧ b.service.raised = none := by
    simpa [App.crashed] using hb.crashed
  exact {
    service := ⟨hu, ha.currentUser.trans hb.currentUser.symm, ha.pending.trans hb.pending.symm,
      ha.replies.trans hb.replies.symm, hsa.trans hsb.symm, fun _ => False.elim⟩
    fireBaseListener := ha.fireBaseListener.trans hb.fireBaseListener.symm
    authListener := ha.authListener.trans hb.authListener.symm
    listeners := fun i hi => by
      rw [ha.fireBaseListener, ha.authListener, or_self] at hi
      exact Option.some.inj hi ▸ hp
    screens := fun i hi => (ha.screens hoa hi).trans (hb.screens hob hi).symm
    stack := (ha.filter_stack hoa hp).trans (hb.filter_stack hob hp).symm
    presented := fun i hi => by simp [ha.not_presented hoa hi, hb.not_presented hob hi]
    timers := (ha.filter_timers hoa).trans (hb.filter_timers hob).symm
    raised := hra.trans hrb.symm }

/-- What relates the two sessions: they are alike, and the addresses from before stay used. -/
structure Beside (old : ScreenId → Bool) (s : App × App) : Prop where
  alike : Alike old (fun _ => False) s.1 s.2
  used : ∀ i, old i = true → i ∈ s.1.used ∨ i ∈ s.2.used

theorem release_old (h : Alike old (fun _ => False) a b) {e : Event} {r : Outcome} {i : ScreenId}
    (he : e.act = .release i) (hi : old i = true) (hr : a.step e = some r) :
    Alike old (fun _ => False) r.1 b ∧ r.2 = [] := by
  obtain ⟨-, -, hact⟩ := step_act hr
  simp only [he, act] at hact
  split_ifs at hact
  obtain rfl := Option.some.inj hact
  refine ⟨{ h with screens := fun j hj => ?_ }, rfl⟩
  have hne : j ≠ i := by
    rintro rfl
    rw [hi] at hj
    cases hj
  exact (Function.update_of_ne hne _ _).trans (h.screens j hj)

theorem supplies_iff {s : App} {e : Event} : s.supplies e ↔
    e.fresh ∉ s.used ∧ e.fresh' ∉ s.used ∧ e.fresh ≠ e.fresh' := by
  simp [supplies]

theorem used_mono {s : App} {e : Event} {r : Outcome} (h : s.step e = some r) {i : ScreenId}
    (hi : i ∈ s.used) : i ∈ r.1.used := by
  rw [used_step h]
  exact List.mem_cons_of_mem _ (List.mem_cons_of_mem _ hi)

theorem Beside.move {m : TwinMove} (hb : Beside old m.before) (hm : machine.twin.Fires m)
    (hs : InSession old m = true)
    (hc : ∀ e ∈ m.event.shared, ReadsSame m.before.1 m.before.2 e.act) :
    Beside old m.after ∧ ∀ o ∈ m.out, writes o.1 = writes o.2 := by
  rcases Machine.twin_fires hm with ⟨e, r, r', he, hr, hr', ha, ho⟩ | ⟨e, r, he, hr, ha, ho⟩ |
    ⟨e, r, he, hr, ha, ho⟩
  · have hf : ∀ j ∈ [e.fresh, e.fresh'], old j = false := by
      intro j hj
      have hsup := supplies_iff.mp (step_act hr).2.1
      have hsup' := supplies_iff.mp (step_act hr').2.1
      by_contra ho
      rcases hb.used j (by simpa using ho) with hu | hu <;>
        rcases List.mem_pair.mp hj with rfl | rfl
      · exact hsup.1 hu
      · exact hsup.2.1 hu
      · exact hsup'.1 hu
      · exact hsup'.2.1 hu
    rw [InSession, he] at hs
    have hstep := hb.alike.step hr hr' hf hs (hc e (by simp [he, Side.shared]))
    rw [ha, ho]
    refine ⟨⟨hstep.1, fun i hi => ?_⟩, by simpa using hstep.2⟩
    exact (hb.used i hi).imp (used_mono hr) (used_mono hr')
  · rw [InSession, he] at hs
    cases hact : e.act <;> simp only [hact, Bool.false_eq_true] at hs
    obtain ⟨hal, hout⟩ := release_old hb.alike hact hs hr
    rw [ha, ho, hout]
    exact ⟨⟨hal, fun i hi => (hb.used i hi).imp_left (used_mono hr)⟩, by simp⟩
  · rw [InSession, he] at hs
    cases hact : e.act <;> simp only [hact, Bool.false_eq_true] at hs
    obtain ⟨hal, hout⟩ := release_old hb.alike.symm hact hs hr
    rw [ha, ho, hout]
    exact ⟨⟨hal.symm, fun i hi => (hb.used i hi).imp_right (used_mono hr)⟩, by simp⟩

/-- Two sessions of one account, on the same database and with the same events: as long
as no event takes different things from before, they show the same and write the same. -/
theorem sessions_look_same {s : App × App} {h : TwinHistory} (ha : SignedIn u p a)
    (hb : SignedIn u p b) (hu : a.service.users = b.service.users)
    (hr : machine.twin.Run (a, b) h s)
    (hs : ∀ m ∈ h, InSession (before a b p) m = true) (hc : ReadsNothingOld h) :
    LooksSame (before a b p) s.1 s.2 ∧ ∀ m ∈ h, ∀ o ∈ m.out, writes o.1 = writes o.2 := by
  have h0 : Beside (before a b p) (a, b) :=
    ⟨ha.alike hb hu, fun i hi => (of_decide_eq_true hi).1⟩
  obtain ⟨hend, hw⟩ := hr.unwind (G := fun m => InSession (before a b p) m = true ∧
      ∀ e ∈ m.event.shared, ReadsSame m.before.1 m.before.2 e.act) h0
    (fun m hm hg hi => hi.move hm hg.1 hg.2) fun m hm => ⟨hs m hm, hc m hm⟩
  exact ⟨⟨hend.alike.screens, hend.alike.stack⟩, hw⟩

end

def pastOf (v : Uid) : List Act :=
  [.launch, .answer 0 (.fetched v (.dict (Service.signupRecord v))), .complete 0,
    .touch 1 (.logoutButton true), .touch 6 .menuSigninButton,
    .touch 8 (.typed .email "u@mail.com"), .touch 8 (.typed .password "secret"),
    .touch 8 .signinButton, .answer 0 (.signedIn (some "u")), .complete 0]

def sessionAfter (v : Uid) : Option App :=
  (machine.exec [] (start (Service.launch (some v) ["u", "v", "w"])) (script 0 (pastOf v))).map
    Prod.snd

theorem sessionAfter_signedIn {v : Uid} {s : App} (h : sessionAfter v = some s)
    (hc : s.crashed = false) (hu : s.service.currentUser = some "u")
    (hq : s.service.pending = [⟨.fetch "u", 18⟩] ∧ s.service.replies = [])
    (hl : s.fireBaseListener = some 18 ∧ s.authListener = some 18)
    (hp : s.screens 18 = some (.profile .loaded) ∧ s.presented ≠ some 18 ∧ 18 ∉ s.timers)
    (hst : s.stack.head? = some 18 ∧ 18 ∉ s.stack.tail) : SignedIn "u" 18 s := by
  obtain ⟨⟨past, s'⟩, he, rfl⟩ := Option.map_eq_some_iff.mp h
  exact ⟨⟨_, past, start_launch _ _, Machine.Run.nil.exec he⟩, hc, hu, hq.1, hq.2, hl.1, hl.2, hp.1,
    hst.1, hst.2, hp.2.1, hp.2.2⟩

def fetchAndEdit : List Act :=
  [.answer 0 (.fetched "u" (.dict (Service.signupRecord "u"))), .complete 0,
    .touch 18 .editProfileButton, .touch 24 (.typed .mName "An"), .touch 24 .updateData]

theorem edits_look_same :
    let a := (sessionAfter "v").get (by decide)
    let b := (sessionAfter "w").get (by decide)
    let r := (machine.twin.exec [] (a, b) ((script 10 fetchAndEdit).map .both)).get (by decide)
    LooksSame (before a b 18) r.2.1 r.2.2 ∧ ∀ m ∈ r.1, ∀ o ∈ m.out, writes o.1 = writes o.2 := by
  intro a b r
  have ha : SignedIn "u" 18 a := sessionAfter_signedIn (Option.some_get _).symm (by decide)
    (by decide) (by decide) (by decide) (by decide) (by decide)
  have hb : SignedIn "u" 18 b := sessionAfter_signedIn (Option.some_get _).symm (by decide)
    (by decide) (by decide) (by decide) (by decide) (by decide)
  have hs : ∀ m ∈ r.1, InSession (before a b 18) m = true := by decide
  have hold : ∀ m ∈ r.1, ∀ e ∈ m.event.shared,
      (∀ f, m.before.1.reads e.act f → m.before.1.service.cached f = m.before.2.service.cached f) ∧
        m.before.1.readsToken e.act = false ∧ e.act.child = none := by decide
  have hua : a.service.users = (Service.launch none ["u", "v", "w"]).users := rfl
  have hub : b.service.users = (Service.launch none ["u", "v", "w"]).users := rfl
  refine sessions_look_same ha hb (hua.trans hub.symm) (Machine.exec_run _) hs fun m hm e he => ?_
  obtain ⟨hk, ht, hv⟩ := hold m hm e he
  exact ⟨hk, fun h => by simp [ht] at h, fun v h => by simp [h, Act.child] at hv⟩

theorem failed_fetch_shows_past : ¬ ∀ u p a b s h, SignedIn u p a → SignedIn u p b →
    a.service.users = b.service.users → machine.twin.Run (a, b) h s →
    (∀ m ∈ h, InSession (before a b p) m = true) →
    LooksSame (before a b p) s.1 s.2 ∧ ∀ m ∈ h, ∀ o ∈ m.out, writes o.1 = writes o.2 := by
  intro hall
  let a := (sessionAfter "v").get (by decide)
  let b := (sessionAfter "w").get (by decide)
  let r := (machine.twin.exec [] (a, b)
    ((script 10 [.answer 0 (.fetchCancelled "u"), .complete 0]).map .both)).get (by decide)
  have ha : SignedIn "u" 18 a := sessionAfter_signedIn (Option.some_get _).symm (by decide)
    (by decide) (by decide) (by decide) (by decide) (by decide)
  have hb : SignedIn "u" 18 b := sessionAfter_signedIn (Option.some_get _).symm (by decide)
    (by decide) (by decide) (by decide) (by decide) (by decide)
  have hua : a.service.users = (Service.launch none ["u", "v", "w"]).users := rfl
  have hub : b.service.users = (Service.launch none ["u", "v", "w"]).users := rfl
  have hs : ∀ m ∈ r.1, InSession (before a b 18) m = true := by decide
  have hsame := hall "u" 18 a b r.2 r.1 ha hb (hua.trans hub.symm) (Machine.exec_run _) hs
  have hne : r.2.1.screens 18 ≠ r.2.2.screens 18 := by decide
  exact hne (hsame.1.screens 18 (by simp [before]))

end App

end Mioto
