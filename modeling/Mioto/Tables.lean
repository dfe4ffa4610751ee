import Mioto.Display
import Mioto.ImageLoading
import Mioto.Navigation
import Mathlib.Tactic.MkIffOfInductiveProp

/-! The app with the table cells of its Friends screens, and what screens and cells tell their
image views. A cell that is scrolled out is used again for another row. -/

namespace Mioto

abbrev CellId := Nat

structure DisplayAllUsersCell where
  tableView : ScreenId
  name : Option String         -- the label
  deriving DecidableEq

/-- `raised` is an exception in a cell. -/
structure UI where
  app : App
  cells : CellId → Option DisplayAllUsersCell
  raised : Option Exn

inductive UIEvent
  | app (e : Event)
  | cellForRow (i : ScreenId) (row : Nat) (c : CellId)

inductive UIOutput
  | app (m : AppMove)
  | didSetFromUser (c : CellId) (profile : Profile)

namespace UI

def crashed (s : UI) : Bool := s.app.crashed || s.raised.isSome

/-- `URLWithString:` raises for nil. -/
def didSetFromUser (s : UI) (i : ScreenId) (c : CellId) (profile : Profile) : UI × List UIOutput :=
  ({ s with
    cells := Function.update s.cells c (some ⟨i, profile.mUserName⟩)
    raised := if profile.mUserImgUrl.isNone then some .nilArgument else none },
    [.didSetFromUser c profile])

/-- A dequeued cell is new or one of the same table. -/
def step (s : UI) (e : UIEvent) : Option (UI × List UIOutput) :=
  if s.crashed then none
  else
    match e with
    | .app e => (s.app.step e).map fun r => ({ s with app := r.1 }, [.app ⟨s.app, e, r.1, r.2⟩])
    | .cellForRow i row c =>
      match s.app.screens i with
      | some (.friends sc) =>
        (sc.users[row]?).bind fun profile =>
          if (s.cells c).all (·.tableView = i) then some (s.didSetFromUser i c profile) else none
      | _ => none

def machine : Machine UI UIEvent UIOutput := ⟨step⟩

/-- What an enabled event amounts to. -/
inductive Does (s : UI) : UIEvent → UI × List UIOutput → Prop
  | app {e : Event} {r : Outcome} (h : s.app.step e = some r) :
      Does s (.app e) ({ s with app := r.1 }, [.app ⟨s.app, e, r.1, r.2⟩])
  | cellForRow {i : ScreenId} {row : Nat} {c : CellId} {sc : FriendsScreen} {profile : Profile}
      (hi : s.app.screens i = some (.friends sc)) (hrow : sc.users[row]? = some profile) :
      Does s (.cellForRow i row c) (s.didSetFromUser i c profile)

theorem step_does {s : UI} {e : UIEvent} {r : UI × List UIOutput} (h : s.step e = some r) :
    s.crashed = false ∧ Does s e r := by
  unfold step at h
  split_ifs at h with hc
  refine ⟨by simpa using hc, ?_⟩
  cases e with
  | app e =>
    obtain ⟨ar, har, rfl⟩ := Option.map_eq_some_iff.mp h
    exact .app har
  | cellForRow i row c =>
    simp only at h
    split at h
    · next sc hi =>
      obtain ⟨profile, hrow, h⟩ := Option.bind_eq_some_iff.mp h
      obtain ⟨-, h⟩ := Option.ite_none_right_eq_some.mp h
      obtain rfl := Option.some.inj h
      exact .cellForRow hi hrow
    · cases h

structure Launch (s : UI) : Prop where
  app : App.Launch s.app
  cells : ∀ c, s.cells c = none

def start (app : App) : UI := ⟨app, fun _ => none, none⟩

end UI

abbrev UIMove := Move UI UIEvent UIOutput

def UIOutput.move : UIOutput → Option AppMove
  | .app m => some m
  | _ => none

/-- The moves of the app itself. -/
def appMoves (h : List UIMove) : AppHistory := h.flatMap fun m => m.out.filterMap UIOutput.move

theorem appMoves_run {s₀ s : UI} {h : List UIMove} (hr : UI.machine.Run s₀ h s) :
    App.machine.Run s₀.app (appMoves h) s.app := by
  refine hr.project fun m hm => ?_
  obtain ⟨s, e, s', o⟩ := m
  have hd : UI.Does s e (s', o) := (UI.step_does hm).2
  cases hd with
  | app h => exact .cons (m := ⟨s.app, _, _, _⟩) .nil h
  | cellForRow => exact .nil

/-! ### What image views are told -/

def screenView (i : ScreenId) : ViewId := 2 * i

def cellView (c : CellId) : ViewId := 2 * c + 1

inductive ViewCall
  | sd_setImageWithURL (v : ViewId) (url : Option String)
  | setImage (v : ViewId) (x : UIImage)
  deriving DecidableEq

section

variable (URLWithString : String → Option String)

/-- `viewDidLoad` of a ViewProfile screen that is now at `i`. -/
def loadCalls (s : App) (i : ScreenId) : List ViewCall :=
  match s.screens i with
  | some (.viewProfile ⟨some (.url url)⟩) =>
    [.sd_setImageWithURL (screenView i) (URLWithString url)]
  | _ => []

/-- `profileDataRecieved:` of a Profile screen; it runs after the fetch and changes no cache. -/
def deliveryCalls (s : App) (x : ScreenId × Message) : List ViewCall :=
  match x.2, s.screens x.1, s.service.newUser.bind Profile.mUserImgUrl with
  | .profileDataRecieved _, some (.profile _), some url =>
    [.sd_setImageWithURL (screenView x.1) (URLWithString url)]
  | _, _, _ => []

def Act.pickCalls : Act → List ViewCall
  | .touch i (.didFinishPicking x) => [.setImage (screenView i) x]
  | _ => []

/-- The screens that a move makes are at the addresses that it supplies. -/
def AppMove.viewCalls (m : AppMove) : List ViewCall :=
  [m.event.fresh, m.event.fresh'].flatMap (loadCalls URLWithString m.after) ++
    (deliveries m.out).flatMap (deliveryCalls URLWithString m.after) ++ m.event.act.pickCalls

def UIOutput.viewCalls : UIOutput → List ViewCall
  | .app m => m.viewCalls URLWithString
  | .didSetFromUser c profile =>
    profile.mUserImgUrl.toList.map fun url => .sd_setImageWithURL (cellView c) (URLWithString url)

end

section

variable {URLWithString : String → Option String}

theorem screenView_inj {i j : ScreenId} : screenView i = screenView j ↔ i = j := by
  simp [screenView]

theorem cellView_inj {c d : CellId} : cellView c = cellView d ↔ c = d := by
  simp [cellView]

theorem cellView_ne_screenView (c : CellId) (i : ScreenId) : cellView c ≠ screenView i := by
  intro h
  have hparity : (2 * c + 1 : ℕ) = 2 * i := h
  omega

theorem mem_loadCalls {s : App} {i : ScreenId} {vc : ViewCall} :
    vc ∈ loadCalls URLWithString s i ↔
      ∃ url, s.screens i = some (.viewProfile ⟨some (.url url)⟩) ∧
        vc = .sd_setImageWithURL (screenView i) (URLWithString url) := by
  unfold loadCalls
  split
  · next url hi => simp [hi]
  · next hn =>
    simp only [List.not_mem_nil, false_iff, not_exists, not_and]
    exact fun url hi => absurd hi (hn url)

theorem mem_deliveryCalls {s : App} {x : ScreenId × Message} {vc : ViewCall} :
    vc ∈ deliveryCalls URLWithString s x ↔
      ∃ status p url, x.2 = .profileDataRecieved status ∧ s.screens x.1 = some (.profile p) ∧
        s.service.newUser.bind Profile.mUserImgUrl = some url ∧
        vc = .sd_setImageWithURL (screenView x.1) (URLWithString url) := by
  unfold deliveryCalls
  split
  · next status p url hm hp hu => simp [hm, hp, hu]
  · next hn =>
    simp only [List.not_mem_nil, false_iff, not_exists, not_and]
    exact fun status p url hm hp hu => absurd hu (hn status p url hm hp)

theorem mem_pickCalls {a : Act} {vc : ViewCall} :
    vc ∈ a.pickCalls ↔
      ∃ i x, a = .touch i (.didFinishPicking x) ∧ vc = .setImage (screenView i) x := by
  unfold Act.pickCalls
  split
  · simp
  · next hn =>
    simp only [List.not_mem_nil, false_iff, not_exists, not_and]
    exact fun i x ha => absurd ha (hn i x)

theorem AppMove.sd_setImageWithURL_mem {m : AppMove} {v : ViewId} {u : Option String} :
    .sd_setImageWithURL v u ∈ m.viewCalls URLWithString ↔ ∃ i url, v = screenView i ∧
      u = URLWithString url ∧
      ((i ∈ [m.event.fresh, m.event.fresh'] ∧
          m.after.screens i = some (.viewProfile ⟨some (.url url)⟩)) ∨
        ∃ status p, (i, .profileDataRecieved status) ∈ deliveries m.out ∧
          m.after.screens i = some (.profile p) ∧
          m.after.service.newUser.bind Profile.mUserImgUrl = some url) := by
  simp only [AppMove.viewCalls, List.mem_append, List.mem_flatMap, mem_loadCalls,
    mem_deliveryCalls, mem_pickCalls, ViewCall.sd_setImageWithURL.injEq, reduceCtorEq, and_false,
    exists_false, or_false]
  constructor
  · rintro (⟨i, hi, url, hsc, hv, hu⟩ | ⟨⟨i, m'⟩, hd, status, p, url, hm, hsc, himg, hv, hu⟩)
    · exact ⟨i, url, hv, hu, .inl ⟨hi, hsc⟩⟩
    · exact ⟨i, url, hv, hu, .inr ⟨status, p, hm ▸ hd, hsc, himg⟩⟩
  · rintro ⟨i, url, hv, hu, ⟨hi, hsc⟩ | ⟨status, p, hd, hsc, himg⟩⟩
    · exact .inl ⟨i, hi, url, hsc, hv, hu⟩
    · exact .inr ⟨_, hd, status, p, url, rfl, hsc, himg, hv, hu⟩

theorem AppMove.setImage_mem {m : AppMove} {v : ViewId} {x : UIImage} :
    .setImage v x ∈ m.viewCalls URLWithString ↔
      ∃ i, v = screenView i ∧ m.event.act = .touch i (.didFinishPicking x) := by
  simp only [AppMove.viewCalls, List.mem_append, List.mem_flatMap, mem_loadCalls,
    mem_deliveryCalls, mem_pickCalls, ViewCall.setImage.injEq, reduceCtorEq, and_false,
    exists_false, false_or]
  constructor
  · rintro ⟨i, x', ha, hv, rfl⟩
    exact ⟨i, hv, ha⟩
  · rintro ⟨i, hv, ha⟩
    exact ⟨i, x, ha, hv, rfl⟩

end

/-! ### The pictures of the screens -/

def Screen.picture : Screen → Option Picture
  | .profile sc => sc.profileImage.map .url
  | .viewProfile sc => sc.prorfileImage
  | _ => none

namespace Screen

/-- The same picture, or one chosen since. -/
@[mk_iff]
structure SamePicture (sc sc' : Screen) : Prop where
  kind : sc'.kind = sc.kind
  picture : sc'.picture = sc.picture ∨ ∃ x, sc'.picture = some (.chosen x)

theorem SamePicture.refl (sc : Screen) : sc.SamePicture sc := ⟨rfl, .inl rfl⟩

theorem SamePicture.trans {sc sc' sc'' : Screen} (h : sc.SamePicture sc')
    (h' : sc'.SamePicture sc'') : sc.SamePicture sc'' where
  kind := h'.kind.trans h.kind
  picture := by
    rcases h'.picture with he | hx
    · exact he ▸ h.picture
    · exact .inr hx

/-- Only `profileDataRecieved:` changes the picture of a screen that hears something. -/
theorem samePicture_receive {sc : Screen} {user : Option Profile} {m : Message}
    {cs : List Command} (hm : ∀ status, m ≠ .profileDataRecieved status)
    (h : sc.receive user m = some cs) :
    ∀ c ∈ cs, c.Fits (SamePicture sc) fun _ => True := by
  cases received h with
  | dateMissing | profileShown | editKept | editShown => exact absurd rfl (hm _)
  | _ =>
    simp only [List.forall_mem_cons, List.not_mem_nil, false_imp_iff, implies_true, and_true]
    repeat' constructor

theorem samePicture_touched {sc : Screen} {touch : Touch} {cs : List Command}
    (h : sc.touched touch = some cs) : ∀ c ∈ cs, c.Fits (SamePicture sc) fun _ => True := by
  cases touched_cases h with
  | typed ht =>
    unfold typed at ht
    split at ht <;> cases ht <;> simp [Command.Fits, samePicture_iff, kind, picture]
  | _ => simp [Command.Fits, samePicture_iff, kind, picture]

theorem Sourced.picture {H : Uid → Dict → Prop} {sc : Screen} (h : sc.Sourced H) {url : String}
    (hp : sc.picture = some (.url url)) : FromImage H url := by
  cases sc with
  | profile sc =>
    obtain ⟨url', hurl, he⟩ := Option.map_eq_some_iff.mp hp
    exact Picture.url.inj he ▸ h.2 url' hurl
  | viewProfile sc => exact h url hp
  | _ => cases hp

end Screen

theorem Command.Fits.imp {J J' : Screen → Prop} {C : Call → Prop} (hJ : ∀ sc, J sc → J' sc)
    {c : Command} (h : c.Fits J C) : c.Fits J' C := by
  cases c with
  | become sc => exact hJ sc h
  | _ => exact h

namespace App

/-- The picture that screen `i` had, or the one that a new screen comes with. -/
def PictureKept (s : App) (i : ScreenId) (sc : Screen) : Prop :=
  (∃ sc₀, s.screens i = some sc₀ ∧ sc₀.SamePicture sc) ∨
    s.screens i = none ∧ ∃ k user, (Kind.loaded user k).SamePicture sc

theorem PictureKept.trans {s : App} {i : ScreenId} {sc sc' : Screen} (h : s.PictureKept i sc)
    (h' : sc.SamePicture sc') : s.PictureKept i sc' := by
  rcases h with ⟨sc₀, hsc₀, h⟩ | ⟨hn, k, user, h⟩
  · exact .inl ⟨sc₀, hsc₀, h.trans h'⟩
  · exact .inr ⟨hn, k, user, h.trans h'⟩

theorem keeps_pictures (s₀ : App) (t : String) :
    Keeps (fun _ => True) s₀.PictureKept (fun _ => True)
      (fun m => ∀ status, m ≠ .profileDataRecieved status) (fun _ => True)
      (fun i => s₀.screens i = none) t where
  loaded s k i _ hi := .inr ⟨hi, k, s.newUser, .refl _⟩
  loads := ⟨trivial, trivial⟩
  call _ _ _ _ _ _ _ := trivial
  receive s i sc m cs _ hsc hm h c hc :=
    (Screen.samePicture_receive hm h c hc).imp fun _ => hsc.trans
  touched i sc touch cs hsc _ h c hc := (Screen.samePicture_touched h c hc).imp fun _ => hsc.trans
  authStatus _ := by simp

/-- A Profile screen takes the picture of the cache, if that has one. -/
theorem pictures_delivered {t : String} {fresh : List ScreenId} {s : App} (hs : s.crashed = false)
    {status : Int} (hc : (deliver t fresh s (.profileDataRecieved status)).1.crashed = false) :
    (deliver t fresh s (.profileDataRecieved status)).1.service = s.service ∧
    ∀ i sc, (deliver t fresh s (.profileDataRecieved status)).1.screens i = some sc →
      ((∃ sc₀, s.screens i = some sc₀ ∧ sc₀.SamePicture sc) ∧
          ∀ p, sc = .profile p → s.receiver (.profileDataRecieved status) ≠
            some (i, .profileDataRecieved status)) ∨
        ∃ p₀ p, s.screens i = some (.profile p₀) ∧ sc = .profile p ∧
          s.receiver (.profileDataRecieved status) = some (i, .profileDataRecieved status) ∧
          p.profileImage = (s.service.newUser.bind Profile.mUserImgUrl).or p₀.profileImage := by
  unfold deliver receiver at *
  cases hl : s.listening (.profileDataRecieved status) with
  | none => exact ⟨rfl, fun i sc hsc => .inl ⟨⟨sc, hsc, .refl sc⟩, by simp⟩⟩
  | some x =>
    obtain ⟨j, sc₁⟩ := x
    obtain ⟨-, hsc₁⟩ := listening_eq_some.mp hl
    cases sc₁ with
    | profile p₀ =>
      simp only [hl, Screen.receive, ProfileScreen.profileDataRecieved] at hc ⊢
      cases hd : s.service.newUser.bind Profile.mUserJoinedDate with
      | none => simp [hd, runAll, crashed] at hc
      | some date =>
        simp only
        rw [runAll_cons_of_go (by rw [perform_become]; exact hs)]
        simp only [perform_become, runAll, Sequence.runAll_singleton, perform_endIgnoring]
        refine ⟨trivial, fun i sc hsc => ?_⟩
        by_cases hi : i = j
        · subst hi
          obtain rfl : _ = sc := by simpa using hsc
          exact .inr ⟨p₀, _, hsc₁, rfl, rfl, rfl⟩
        · exact .inl ⟨⟨sc, by simpa [hi] using hsc, .refl sc⟩, by simp [Ne.symm hi]⟩
    | edit ed =>
      simp only [hl, Screen.receive, EditProfileScreen.profileDataRecieved] at hc ⊢
      split_ifs
      · refine ⟨rfl, fun i sc hsc => .inl ⟨⟨sc, hsc, .refl sc⟩, ?_⟩⟩
        rintro p rfl he
        obtain rfl : j = i := by simpa using he
        exact absurd (hsc₁.symm.trans hsc) (by simp)
      · simp only [runAll, Sequence.runAll_singleton, perform_become]
        refine ⟨trivial, fun i sc hsc => .inl ?_⟩
        by_cases hi : i = j
        · subst hi
          obtain rfl : _ = sc := by simpa using hsc
          exact ⟨⟨_, hsc₁, rfl, .inl rfl⟩, by simp⟩
        · exact ⟨⟨sc, by simpa [hi] using hsc, .refl sc⟩, by simp [Ne.symm hi]⟩
    | _ => simp [hl, Screen.receive, crashed] at hc

/-- An event that is not the end of a fetch. -/
theorem pictures_kept {s : App} {e : Event} {r : Outcome} (hr : s.step e = some r)
    (hf : ∀ j ∈ [e.fresh, e.fresh'], s.screens j = none)
    (hn : ∀ se, e.act.report e.stringTime = some se →
      ∀ status, s.service.announced se ≠ some (.profileDataRecieved status)) :
    (∀ i sc, r.1.screens i = some sc → s.PictureKept i sc) ∧
      ∀ i status, (i, .profileDataRecieved status) ∉ deliveries r.2 := by
  have hsilent : ∀ se, reporting e = some se →
      ∀ status, s.service.announced se ≠ some (.profileDataRecieved status) := by
    intro se hse status
    rcases reporting_eq_some hse with ⟨i, keychain, -, rfl⟩ | ⟨k, ha, rfl⟩ | ⟨k, q, ha, rfl⟩
    · simp [Service.announced]
    · exact hn _ (by rw [ha]; rfl) status
    · exact hn _ (by rw [ha]; rfl) status
  refine ⟨?_, fun i status hmem => ?_⟩
  · have hholds : Holds (fun _ => True) s.PictureKept s :=
      ⟨trivial, fun i sc hsc => .inl ⟨sc, hsc, .refl sc⟩⟩
    refine ((keeps_pictures s e.stringTime).step hr hf hholds (fun _ _ _ => trivial)
      (fun se rr ha _ => ⟨trivial, fun m hm status he => ?_⟩) (E := fun _ => True) trivial
      fun v _ sv o rr _ _ _ => ⟨trivial, trivial, fun m hm status he => ?_⟩).screens
    · rcases ha with ha | ha
      · simp [announced_of_silent ha] at hm
      · exact hn se ha status (he ▸ hm)
    · subst he
      obtain ⟨d, -, hd⟩ := Option.map_eq_some_iff.mp hm
      cases hd
  · by_cases hv : ∃ v, e.act = .childAdded v
    · obtain ⟨v, hv⟩ := hv
      rw [(step_taken hr).childAdded hv] at hmem
      obtain ⟨p, hp⟩ := mem_deliveries_childAdded hmem
      cases hp
    · rw [deliveries_step (o := r.2) hr fun v ha => hv ⟨v, ha⟩] at hmem
      obtain ⟨se, hse, hx⟩ := Option.bind_eq_some_iff.mp (Option.mem_toList.mp hmem)
      obtain ⟨m, hm, hx⟩ := Option.bind_eq_some_iff.mp hx
      obtain ⟨y, -, hy⟩ := Option.map_eq_some_iff.mp hx
      obtain ⟨-, rfl⟩ := Prod.mk.inj hy
      exact hsilent se hse status hm

/-- Each screen keeps its picture, or is a Profile screen that was just shown the cache. -/
theorem picture_step {s : App} {e : Event} {r : Outcome} (hr : s.step e = some r)
    (hf : ∀ j ∈ [e.fresh, e.fresh'], s.screens j = none) (hc : r.1.crashed = false) {i : ScreenId}
    {sc : Screen} (hsc : r.1.screens i = some sc) :
    (s.PictureKept i sc ∧
        ∀ p status, sc = .profile p → (i, .profileDataRecieved status) ∉ deliveries r.2) ∨
      ∃ p₀ p status, s.screens i = some (.profile p₀) ∧ sc = .profile p ∧
        (i, .profileDataRecieved status) ∈ deliveries r.2 ∧
        p.profileImage = (r.1.service.newUser.bind Profile.mUserImgUrl).or p₀.profileImage := by
  by_cases hfetch : ∃ se status, e.act.report e.stringTime = some se ∧
      s.service.announced se = some (.profileDataRecieved status)
  · obtain ⟨se, status, ha, hm⟩ := hfetch
    have htaken := step_taken hr
    obtain ⟨rr, hrr, rfl⟩ := htaken.report ha
    have hraised := (Service.step_announced hrr).2 (by simp [hm])
    rw [settle_serve_of_some (s := s.reserve e) htaken.raised hrr hm] at hc hsc ⊢
    let s' : App := { s.reserve e with service := rr.1 }
    have hs' : s'.crashed = false := by simp [s', crashed, reserve, htaken.raised, hraised]
    obtain ⟨hservice, hscreens⟩ := pictures_delivered (s := s') hs' hc
    have hmem : ∀ status', (i, .profileDataRecieved status') ∈
        deliveries (deliver e.stringTime [e.fresh, e.fresh'] s' (.profileDataRecieved status)).2 ↔
          s'.receiver (.profileDataRecieved status) = some (i, .profileDataRecieved status') := by
      intro status'
      rw [deliveries_deliver, Option.mem_toList]
    simp only [deliveries_service]
    rcases hscreens i sc hsc with ⟨hsame, hp⟩ | ⟨p₀, p, hp₀, rfl, hrec, himg⟩
    · refine .inl ⟨.inl hsame, fun p status' he hd => ?_⟩
      have hrec := (hmem status').mp hd
      obtain ⟨y, -, hy⟩ := Option.map_eq_some_iff.mp hrec
      obtain ⟨-, hm'⟩ := Prod.mk.inj hy
      obtain rfl := Message.profileDataRecieved.inj hm'
      exact hp p he hrec
    · exact .inr ⟨p₀, p, status, hp₀, rfl, (hmem status).mpr hrec, by rw [himg, ← hservice]⟩
  · have hn : ∀ se, e.act.report e.stringTime = some se →
        ∀ status, s.service.announced se ≠ some (.profileDataRecieved status) :=
      fun se ha status hm => hfetch ⟨se, status, ha, hm⟩
    obtain ⟨hkept, hd⟩ := pictures_kept hr hf hn
    exact .inl ⟨hkept i sc hsc, fun _ status _ => hd i status⟩

/-- The picture that a user picks is on the screen at once. -/
theorem picture_picked {s : App} {e : Event} {r : Outcome} (hr : s.step e = some r) {i : ScreenId}
    {x : String} (ha : e.act = .touch i (.didFinishPicking x)) :
    (s.screens i).isSome ∧ r.1.screens i = some (.viewProfile ⟨some (.chosen x)⟩) := by
  have htaken := step_taken hr
  obtain ⟨sc, cs, -, hsc, hcs, rfl⟩ := htaken.touch ha
  refine ⟨by simp [hsc], ?_⟩
  obtain rfl : cs = ViewProfileScreen.didFinishPicking x := by
    cases Screen.touched_cases hcs
    rfl
  have hserve := serve_call htaken.running i (.uploadProfileImage x) (t := e.stringTime)
  have hc : ((s.reserve e).serve (.call i e.stringTime (.uploadProfileImage x))).1.crashed =
      false := by
    rw [hserve]
    exact htaken.running
  rcases settle_touched (s := s.reserve e) htaken.serviceRaised hcs e.stringTime
    [e.fresh, e.fresh'] i with ⟨keychain, hk, -⟩ | ⟨-, -, he⟩
  · cases hk
  · rw [he, ViewProfileScreen.didFinishPicking, runAll_cons_of_go (by rw [perform_call]; exact hc),
      runAll_cons_of_go (by rw [perform_become, perform_call]; exact hc)]
    simp only [perform_become, runAll, Sequence.runAll_singleton, perform_call,
      perform_beginIgnoring, Function.update_self]

end App

/-- How the picture of screen `i`, which is now `sc`, and what its view is told go together. -/
inductive Pictured (URLWithString : String → Option String) (m : AppMove) (i : ScreenId)
    (sc : Screen) : Prop
  | chosen {x : String} (hp : sc.picture = some (.chosen x))
  | kept {sc₀ : Screen} (hb : m.before.screens i = some sc₀) (hp : sc.picture = sc₀.picture)
      (hu : ∀ u, .sd_setImageWithURL (screenView i) u ∉ m.viewCalls URLWithString)
      (hx : ∀ x, .setImage (screenView i) x ∉ m.viewCalls URLWithString)
  | blank (hb : i ∉ m.before.used) (hp : sc.picture = none)
      (hu : ∀ u, .sd_setImageWithURL (screenView i) u ∉ m.viewCalls URLWithString)
      (hx : ∀ x, .setImage (screenView i) x ∉ m.viewCalls URLWithString)
  | told (url : String) (hb : i ∉ m.before.used ∨ ∃ p₀, m.before.screens i = some (.profile p₀))
      (hp : sc.picture = some (.url url))
      (hmem : .sd_setImageWithURL (screenView i) (URLWithString url) ∈ m.viewCalls URLWithString)
      (hu : ∀ u, .sd_setImageWithURL (screenView i) u ∈ m.viewCalls URLWithString →
        u = URLWithString url)
      (hx : ∀ x, .setImage (screenView i) x ∉ m.viewCalls URLWithString)

theorem Kind.picture_loaded {k : Kind} {user : Option Profile} {pic : Picture}
    (h : (Kind.loaded user k).picture = some pic) : k = .viewProfile := by
  cases k <;> first | rfl | simp [Kind.loaded, Screen.picture, ProfileScreen.loaded] at h

theorem pictured_of_fires (URLWithString : String → Option String) {a₀ : App} {older : AppHistory}
    {m : AppMove} (hl : App.Launch a₀) (hr : App.machine.Run a₀ older m.before)
    (hm : App.machine.Fires m) (hc : m.after.crashed = false) {i : ScreenId} {sc : Screen}
    (hi : m.after.screens i = some sc) : Pictured URLWithString m i sc := by
  have hfresh : ∀ j ∈ [m.event.fresh, m.event.fresh'], m.before.screens j = none :=
    fun j hj => App.unused_new hl hr hm hj
  by_cases hch : ∃ x, sc.picture = some (.chosen x)
  · obtain ⟨x, hx⟩ := hch
    exact .chosen hx
  have hpick : ∀ x, .setImage (screenView i) x ∉ m.viewCalls URLWithString := by
    intro x hmem
    obtain ⟨j, hj, hact⟩ := AppMove.setImage_mem.mp hmem
    obtain rfl := screenView_inj.mp hj
    have hpicked := (App.picture_picked (r := (m.after, m.out)) hm hact).2
    obtain rfl := Option.some.inj (hi.symm.trans hpicked)
    exact hch ⟨x, rfl⟩
  rcases App.picture_step (r := (m.after, m.out)) hm hfresh hc hi with
    ⟨hkept, hquiet⟩ | ⟨p₀, p, status, hp₀, rfl, hd, himg⟩
  · -- nothing but `viewDidLoad` tells the view
    have hload : ∀ u, .sd_setImageWithURL (screenView i) u ∈ m.viewCalls URLWithString →
        i ∈ [m.event.fresh, m.event.fresh'] ∧ ∃ url, sc = .viewProfile ⟨some (.url url)⟩ ∧
          u = URLWithString url := by
      intro u hmem
      obtain ⟨j, url, hj, hu, ⟨hjf, hsc⟩ | ⟨status, p, hd, hsc, -⟩⟩ :=
        AppMove.sd_setImageWithURL_mem.mp hmem
      · obtain rfl := screenView_inj.mp hj
        exact ⟨hjf, url, Option.some.inj (hi.symm.trans hsc), hu⟩
      · obtain rfl := screenView_inj.mp hj
        exact absurd hd (hquiet p status (Option.some.inj (hi.symm.trans hsc)))
    rcases hkept with ⟨sc₀, hsc₀, hsame⟩ | ⟨hnone, k, user, hsame⟩
    · refine .kept hsc₀ (hsame.picture.resolve_right hch) (fun u hmem => ?_) hpick
      rw [hfresh i (hload u hmem).1] at hsc₀
      cases hsc₀
    · have hsome : ((m.after, m.out).1.screens i).isSome := by simp [hi]
      have hif := (App.made_fresh hm (App.navigated_of_run hl hr) hsome).resolve_left
        (by simp [hnone])
      have hunused := App.not_mem_used_of_fresh hm hif
      have hpic := hsame.picture.resolve_right hch
      cases hp : sc.picture with
      | none =>
        refine .blank hunused hp (fun u hmem => ?_) hpick
        obtain ⟨-, url, rfl, -⟩ := hload u hmem
        cases hp
      | some pic =>
        obtain rfl := Kind.picture_loaded (hpic.symm.trans hp)
        obtain ⟨vp, rfl⟩ : ∃ vp, sc = .viewProfile vp := by
          cases sc <;> first | exact ⟨_, rfl⟩ | cases hsame.kind
        obtain ⟨-⟩ | ⟨url⟩ | ⟨x⟩ := vp
        · cases hp
        · refine .told url (.inl hunused) rfl ?_ (fun u hmem => ?_) hpick
          · exact AppMove.sd_setImageWithURL_mem.mpr ⟨i, url, rfl, rfl, .inl ⟨hif, hi⟩⟩
          · obtain ⟨-, url', hurl, hu⟩ := hload u hmem
            cases hurl
            exact hu
        · exact absurd ⟨x, rfl⟩ hch
  · have hnew : ∀ u, .sd_setImageWithURL (screenView i) u ∈ m.viewCalls URLWithString →
        ∃ url, m.after.service.newUser.bind Profile.mUserImgUrl = some url ∧
          u = URLWithString url := by
      intro u hmem
      obtain ⟨j, url, hj, hu, ⟨hjf, hsc⟩ | ⟨status', p', hd', hsc, hurl⟩⟩ :=
        AppMove.sd_setImageWithURL_mem.mp hmem
      · obtain rfl := screenView_inj.mp hj
        cases hi.symm.trans hsc
      · exact ⟨url, hurl, hu⟩
    cases hurl : m.after.service.newUser.bind Profile.mUserImgUrl with
    | none =>
      refine .kept hp₀ ?_ (fun u hmem => ?_) hpick
      · simp only [Screen.picture, himg, hurl, Option.none_or]
      · obtain ⟨url, hsome, -⟩ := hnew u hmem
        cases hurl.symm.trans hsome
    | some url =>
      refine .told url (.inr ⟨p₀, hp₀⟩) ?_ ?_ (fun u hmem => ?_) hpick
      · simp only [Screen.picture, himg, hurl, Option.some_or, Option.map_some]
      · exact AppMove.sd_setImageWithURL_mem.mpr
          ⟨i, url, rfl, rfl, .inr ⟨status, p, hd, hi, hurl⟩⟩
      · obtain ⟨url', hsome, hu⟩ := hnew u hmem
        exact Option.some.inj (hurl.symm.trans hsome) ▸ hu

/-- A view is told nothing before its screen is made. -/
theorem untold_of_unused (URLWithString : String → Option String) {a₀ : App} {older : AppHistory}
    {m : AppMove} (hl : App.Launch a₀) (hr : App.machine.Run a₀ older m.before)
    (hm : App.machine.Fires m) {i : ScreenId} (hi : i ∉ m.after.used) :
    (∀ u, .sd_setImageWithURL (screenView i) u ∉ m.viewCalls URLWithString) ∧
      ∀ x, .setImage (screenView i) x ∉ m.viewCalls URLWithString := by
  have hafter := (App.addressed_of_run hl (hr.cons hm)).screens i
  have hbefore := (App.addressed_of_run hl hr).screens i
  have hused : m.after.used = m.event.fresh :: m.event.fresh' :: m.before.used := App.used_step hm
  refine ⟨fun u hmem => ?_, fun x hmem => ?_⟩
  · obtain ⟨j, url, hj, -, ⟨-, hsc⟩ | ⟨status, p, -, hsc, -⟩⟩ :=
      AppMove.sd_setImageWithURL_mem.mp hmem
    all_goals
      obtain rfl := screenView_inj.mp hj
      exact hi (hafter (by simp [hsc]))
  · obtain ⟨j, hj, hact⟩ := AppMove.setImage_mem.mp hmem
    obtain rfl := screenView_inj.mp hj
    have hsome := (App.picture_picked (r := (m.after, m.out)) hm hact).1
    exact hi (by simp [hused, hbefore hsome])

end Mioto
