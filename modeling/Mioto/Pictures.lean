import Mioto.Driving
import Mioto.ImageViews
import Mioto.Tables

/-! The app together with the pictures that it loads. What an image view is told comes from the
methods of the screens and cells; what arrives later comes from the queues and downloads, in any
order. -/

namespace Mioto

def ImageEvent.viewCall : ImageEvent → Option ViewCall
  | .setImageWithURL v url _ => some (.sd_setImageWithURL v url)
  | .setImage v x => some (.setImage v x)
  | _ => none

/-- The screen of the view is gone, or the table that its cell belongs to. -/
def UI.released (s : UI) (v : ViewId) : Bool :=
  if v % 2 = 0 then v / 2 ∈ s.app.used && (s.app.screens (v / 2)).isNone
  else (s.cells (v / 2)).any fun cell => (s.app.screens cell.tableView).isNone

def UI.allows (s : UI) : ImageEvent → Bool
  | .release v => s.released v
  | e => e.viewCall.isNone

def UI.viewCalls (URLWithString : String → Option String) (m : UIMove) : List ViewCall :=
  m.out.flatMap (UIOutput.viewCalls URLWithString)

/-- `URLWithString` is what Foundation makes of the text of a URL. -/
def pictures (URLWithString : String → Option String) : Drive UI.machine Images.machine where
  calls m es := es.map ImageEvent.viewCall = (UI.viewCalls URLWithString m).map some
  free s e := !s.crashed && s.allows e

abbrev PictureMove :=
  Move (UI × Images) (DriveEvent UIEvent ImageEvent) (UIMove ⊕ ImageMove)

abbrev PictureHistory := List PictureMove

/-! ### The views told of in a list of calls -/

namespace ViewCall

def givenURL (v : ViewId) : ViewCall → Option (Option String)
  | .sd_setImageWithURL v' url => if v' = v then some url else none
  | .setImage .. => none

/-- The last URL that the calls give the view. -/
def lastURL (l : List ViewCall) (v : ViewId) : Option (Option String) :=
  l.reverse.findSome? (givenURL v)

theorem givenURL_eq_some {v : ViewId} {c : ViewCall} {u : Option String} :
    c.givenURL v = some u ↔ c = .sd_setImageWithURL v u := by
  cases c with
  | sd_setImageWithURL v' url =>
    simp only [givenURL, sd_setImageWithURL.injEq]
    split_ifs with h <;> simp [h]
  | setImage => simp [givenURL]

theorem lastURL_cases (l : List ViewCall) (v : ViewId) :
    (lastURL l v = none ∧ ∀ u, .sd_setImageWithURL v u ∉ l) ∨
      ∃ u, lastURL l v = some u ∧ .sd_setImageWithURL v u ∈ l := by
  cases h : lastURL l v with
  | none =>
    refine .inl ⟨rfl, fun u hu => ?_⟩
    have hn := List.findSome?_eq_none_iff.mp h _ (List.mem_reverse.mpr hu)
    rw [givenURL_eq_some.mpr rfl] at hn
    cases hn
  | some u =>
    obtain ⟨c, hc, hu⟩ := List.exists_of_findSome?_eq_some h
    exact .inr ⟨u, rfl, givenURL_eq_some.mp hu ▸ List.mem_reverse.mp hc⟩

theorem lastURL_eq_none {l : List ViewCall} {v : ViewId} (h : ∀ u, .sd_setImageWithURL v u ∉ l) :
    lastURL l v = none := by
  rcases lastURL_cases l v with ⟨hn, -⟩ | ⟨u, -, hu⟩
  · exact hn
  · exact absurd hu (h u)

end ViewCall

namespace Images

theorem lastURL_append (g h : ImageHistory) (v : ViewId) :
    lastURL (g ++ h) v = (g.findSome? fun m => givenURL v m.event).getD (lastURL h v) := by
  simp only [lastURL, List.findSome?_append]
  cases g.findSome? fun m => givenURL v m.event <;> rfl

theorem givenURL_eq (v : ViewId) (e : ImageEvent) :
    givenURL v e = e.viewCall.bind (ViewCall.givenURL v) := by
  cases e <;> rfl

/-- What a script of calls does to the histories of the views. -/
theorem calls_exec {s s' : Images} {es : List ImageEvent} {g : ImageHistory} {l : List ViewCall}
    (he : machine.exec [] s es = some (g, s')) (hl : es.map ImageEvent.viewCall = l.map some)
    (h : ImageHistory) :
    (∀ v, lastURL (g ++ h) v = (ViewCall.lastURL l v).getD (lastURL h v)) ∧
      ∀ v x, Chosen (g ++ h) v x ↔ .setImage v x ∈ l ∨ Chosen h v x := by
  have hevents : g.map Move.event = es.reverse := by simpa using Machine.events_exec he
  have hcalls : es.reverse.map ImageEvent.viewCall = l.reverse.map some := by
    rw [List.map_reverse, hl, List.map_reverse]
  refine ⟨fun v => ?_, fun v x => ?_⟩
  · have hgiven : (g.findSome? fun m => givenURL v m.event) = ViewCall.lastURL l v :=
      calc (g.findSome? fun m => givenURL v m.event)
          = (g.map Move.event).findSome? (givenURL v) := by rw [List.findSome?_map]; rfl
        _ = (es.reverse.map ImageEvent.viewCall).findSome? (·.bind (ViewCall.givenURL v)) := by
          rw [hevents, List.findSome?_map]
          exact congrArg (es.reverse.findSome? ·) (funext (givenURL_eq v))
        _ = ViewCall.lastURL l v := by rw [hcalls, List.findSome?_map]; rfl
    rw [lastURL_append, hgiven]
  · have hset : ∀ e : ImageEvent, e.viewCall = some (.setImage v x) ↔ e = .setImage v x := by
      intro e
      cases e <;> simp [ImageEvent.viewCall]
    have hmem : (∃ m ∈ g, m.event = .setImage v x) ↔ .setImage v x ∈ l :=
      calc (∃ m ∈ g, m.event = .setImage v x)
          ↔ .setImage v x ∈ es.reverse := by rw [← hevents, List.mem_map]
        _ ↔ some (.setImage v x) ∈ es.reverse.map ImageEvent.viewCall := by
          simp only [List.mem_map, hset, exists_eq_right]
        _ ↔ .setImage v x ∈ l := by simp [hcalls]
    simp only [Chosen, List.mem_append, or_and_right, exists_or, hmem]

end Images

def Picture.NSURL (URLWithString : String → Option String) : Picture → Option String
  | .url text => URLWithString text
  | .chosen _ => none

/-- The URLs that views were last given are those of what the screens and rows show. `H p` may
be read as "`p` has been in the database". -/
structure Agrees (URLWithString : String → Option String) (H : Profile → Prop) (s : UI)
    (h : ImageHistory) : Prop where
  unused : ∀ i, i ∉ s.app.used → Images.lastURL h (screenView i) = none ∧
    ∀ x, ¬ Images.Chosen h (screenView i) x
  screens : ∀ i sc, s.app.screens i = some sc → (∃ y, sc.picture = some (.chosen y)) ∨
    Images.lastURL h (screenView i) = sc.picture.bind (Picture.NSURL URLWithString) ∧
      ∀ x, ¬ Images.Chosen h (screenView i) x
  cells : ∀ c, s.cells c = none → Images.lastURL h (cellView c) = none
  rows : ∀ c cell, s.cells c = some cell → ∃ p, H p ∧ cell.name = p.mUserName ∧
    Images.lastURL h (cellView c) = p.mUserImgUrl.bind URLWithString
  unpicked : ∀ c x, ¬ Images.Chosen h (cellView c) x

namespace Agrees

variable {URLWithString : String → Option String} {H H' : Profile → Prop} {s s' : UI}
  {h h' : ImageHistory}

theorem mono (ha : Agrees URLWithString H s h) (hH : ∀ p, H p → H' p) :
    Agrees URLWithString H' s h :=
  { ha with
    rows := fun c cell hc => (ha.rows c cell hc).imp fun p hp => ⟨hH p hp.1, hp.2⟩ }

theorem of_same (ha : Agrees URLWithString H s h)
    (hu : ∀ v, Images.lastURL h' v = Images.lastURL h v)
    (hc : ∀ v x, Images.Chosen h' v x ↔ Images.Chosen h v x) : Agrees URLWithString H s h' where
  unused i hi := by simpa only [hu, hc] using ha.unused i hi
  screens i sc hi := by simpa only [hu, hc] using ha.screens i sc hi
  cells c hcell := by simpa only [hu] using ha.cells c hcell
  rows c cell hcell := by simpa only [hu] using ha.rows c cell hcell
  unpicked c x := by simpa only [hc] using ha.unpicked c x

theorem app {a₀ : App} {older : AppHistory} {m : AppMove} (ha : Agrees URLWithString H s h)
    (hl : App.Launch a₀) (hr : App.machine.Run a₀ older m.before) (hm : App.machine.Fires m)
    (hs : s.app = m.before) (hc : m.after.crashed = false)
    (hu : ∀ v, Images.lastURL h' v =
      (ViewCall.lastURL (m.viewCalls URLWithString) v).getD (Images.lastURL h v))
    (hx : ∀ v x, Images.Chosen h' v x ↔ .setImage v x ∈ m.viewCalls URLWithString ∨
      Images.Chosen h v x) : Agrees URLWithString H { s with app := m.after } h' := by
  have hsame : ∀ v, (∀ u, .sd_setImageWithURL v u ∉ m.viewCalls URLWithString) →
      Images.lastURL h' v = Images.lastURL h v := fun v hn => by
    rw [hu, ViewCall.lastURL_eq_none hn, Option.getD_none]
  have hcell : ∀ c, Images.lastURL h' (cellView c) = Images.lastURL h (cellView c) := fun c =>
    hsame _ fun u hmem => by
      obtain ⟨i, url, hv, -⟩ := AppMove.sd_setImageWithURL_mem.mp hmem
      exact cellView_ne_screenView c i hv
  have hnever : ∀ i, (∀ x, .setImage (screenView i) x ∉ m.viewCalls URLWithString) →
      (∀ x, ¬ Images.Chosen h (screenView i) x) → ∀ x, ¬ Images.Chosen h' (screenView i) x :=
    fun i hn hh x hch => ((hx _ _).mp hch).elim (hn x) (hh x)
  exact
    { unused := fun i hi => by
        have hused : m.after.used = m.event.fresh :: m.event.fresh' :: m.before.used :=
          App.used_step hm
        obtain ⟨hnone, hh⟩ := ha.unused i fun hmem => hi (by simp [hused, ← hs, hmem])
        obtain ⟨hu', hx'⟩ := untold_of_unused URLWithString hl hr hm hi
        exact ⟨(hsame _ hu').trans hnone, hnever i hx' hh⟩
      screens := fun i sc hi => by
        cases pictured_of_fires URLWithString hl hr hm hc hi with
        | chosen hp => exact .inl ⟨_, hp⟩
        | kept hb hp hu' hx' =>
          rw [hp]
          refine (ha.screens i _ (hs ▸ hb)).imp_right fun ⟨hurl, hh⟩ => ?_
          exact ⟨(hsame _ hu').trans hurl, hnever i hx' hh⟩
        | blank hb hp hu' hx' =>
          obtain ⟨hnone, hh⟩ := ha.unused i (hs ▸ hb)
          exact .inr ⟨by rw [hsame _ hu', hnone, hp]; rfl, hnever i hx' hh⟩
        | told url hb hp hmem hu' hx' =>
          have hh : ∀ x, ¬ Images.Chosen h (screenView i) x := by
            rcases hb with hb | ⟨p₀, hp₀⟩
            · exact (ha.unused i (hs ▸ hb)).2
            · refine ((ha.screens i _ (hs ▸ hp₀)).resolve_left ?_).2
              simp [Screen.picture]
          refine .inr ⟨?_, hnever i hx' hh⟩
          rcases ViewCall.lastURL_cases (m.viewCalls URLWithString) (screenView i) with
            ⟨-, hn⟩ | ⟨u, hlast, hu₁⟩
          · exact absurd hmem (hn _)
          · rw [hu, hlast, hp, hu' u hu₁]
            rfl
      cells := fun c hn => (hcell c).trans (ha.cells c hn)
      rows := fun c cell hc => by simpa only [hcell] using ha.rows c cell hc
      unpicked := fun c x hch => by
        rcases (hx _ _).mp hch with hmem | hch
        · obtain ⟨i, hv, -⟩ := AppMove.setImage_mem.mp hmem
          exact cellView_ne_screenView c i hv
        · exact ha.unpicked c x hch }

/-- A row is set: its label and its view at once. -/
theorem row (ha : Agrees URLWithString H s h) {i : ScreenId} {c : CellId} {profile : Profile}
    (hH : H profile) (hc : (s.didSetFromUser i c profile).1.crashed = false)
    (hu : ∀ v, Images.lastURL h' v =
      (ViewCall.lastURL (UIOutput.viewCalls URLWithString (.didSetFromUser c profile)) v).getD
        (Images.lastURL h v))
    (hx : ∀ v x, Images.Chosen h' v x ↔
      .setImage v x ∈ UIOutput.viewCalls URLWithString (.didSetFromUser c profile) ∨
        Images.Chosen h v x) : Agrees URLWithString H (s.didSetFromUser i c profile).1 h' := by
  obtain ⟨text, himg⟩ : ∃ text, profile.mUserImgUrl = some text := by
    rw [← Option.isSome_iff_exists]
    by_contra hn
    simp [UI.crashed, UI.didSetFromUser, Option.not_isSome_iff_eq_none.mp hn] at hc
  have hone : ∀ v, Images.lastURL h' v =
      if cellView c = v then URLWithString text else Images.lastURL h v := by
    intro v
    rw [hu]
    simp only [UIOutput.viewCalls, himg, Option.toList_some, List.map_singleton, ViewCall.lastURL,
      List.reverse_singleton, List.findSome?_singleton, ViewCall.givenURL]
    split_ifs <;> rfl
  have hnever : ∀ v x, Images.Chosen h' v x ↔ Images.Chosen h v x := fun v x => by
    simp [hx, UIOutput.viewCalls, himg]
  have hscreen : ∀ j, Images.lastURL h' (screenView j) = Images.lastURL h (screenView j) :=
    fun j => by rw [hone, if_neg (cellView_ne_screenView c j)]
  exact
    { unused := fun j hj => by simpa only [hscreen, hnever] using ha.unused j hj
      screens := fun j sc hj => by simpa only [hscreen, hnever] using ha.screens j sc hj
      cells := fun c' hn => by
        by_cases he : c' = c
        · subst he
          simp [UI.didSetFromUser] at hn
        · rw [hone, if_neg fun hv => he (cellView_inj.mp hv).symm]
          exact ha.cells c' (by simpa [UI.didSetFromUser, he] using hn)
      rows := fun c' cell hcell => by
        by_cases he : c' = c
        · subst he
          obtain rfl : _ = cell := by simpa [UI.didSetFromUser] using hcell
          exact ⟨profile, hH, rfl, by rw [hone, if_pos rfl, himg]; rfl⟩
        · rw [hone, if_neg fun hv => he (cellView_inj.mp hv).symm]
          exact ha.rows c' cell (by simpa [UI.didSetFromUser, he] using hcell)
      unpicked := fun c' x => by simpa only [hnever] using ha.unpicked c' x }

end Agrees

/-- The app from a launch of the process. -/
structure PictureLaunch (s : UI × Images) : Prop where
  ui : s.1.Launch
  images : Images.Launch s.2

/-- `Users/u` held `d` at some moment of the run. -/
def PictureStored (s₀ : UI × Images) (h : PictureHistory) : Uid → Dict → Prop :=
  App.Stored s₀.1.app (appMoves (Drive.driver h))

section

variable {URLWithString : String → Option String} {s₀ s : UI × Images} {h : PictureHistory}

theorem PictureStored.cons {m : PictureMove} {older : AppHistory}
    (hm : appMoves (Drive.driver (m :: h)) = older ++ appMoves (Drive.driver h)) (p : Profile)
    (hp : FromRecord (PictureStored s₀ h) p) : FromRecord (PictureStored s₀ (m :: h)) p := by
  obtain ⟨u, d, ⟨newer, older', s, he, hr, hu⟩, rfl⟩ := hp
  exact ⟨u, d, ⟨older ++ newer, older', s, by rw [hm, he, List.append_assoc], hr, hu⟩, rfl⟩

theorem agrees_launch (hl : s₀.1.Launch) (H : Profile → Prop) :
    Agrees URLWithString H s₀.1 [] where
  unused _ _ := ⟨rfl, by simp [Images.Chosen]⟩
  screens i sc hi := by simp [hl.app.screens] at hi
  cells _ _ := rfl
  rows c cell hc := by simp [hl.cells] at hc
  unpicked _ _ := by simp [Images.Chosen]

/-- What an image view does by itself gives it no URL. -/
theorem Agrees.own {H : Profile → Prop} {u : UI} {ih : ImageHistory}
    (ha : Agrees URLWithString H u ih) {m : ImageMove} (hm : u.allows m.event = true) :
    Agrees URLWithString H u (m :: ih) := by
  have hcall : m.event.viewCall = none := by
    cases he : m.event <;> simp_all [UI.allows, ImageEvent.viewCall]
  refine ha.of_same (fun v => ?_) fun v x => ?_
  · have hnone : Images.givenURL v m.event = none := by rw [Images.givenURL_eq, hcall]; rfl
    simp [Images.lastURL, hnone]
  · have hne : m.event ≠ .setImage v x := fun he => by simp [he, ImageEvent.viewCall] at hcall
    simp [Images.Chosen, hne]

theorem agrees_of_run (hl : PictureLaunch s₀) (hr : (pictures URLWithString).machine.Run s₀ h s)
    (hc : s.1.crashed = false) :
    Agrees URLWithString (FromRecord (PictureStored s₀ h)) s.1 (Drive.driven h) := by
  induction hr with
  | nil => exact agrees_launch hl.ui _
  | @cons h m hr hm ih =>
    have hrun := appMoves_run (Drive.run_driver hr)
    cases Drive.moved hm with
    | @drive mv es g hmv hb ha hcalls hg ho =>
      have hdriven : Drive.driven (m :: h) = g ++ Drive.driven h := by
        simp [Drive.driven, ho, Drive.filterMap_getRight]
      have hdriver : Drive.driver (m :: h) = mv :: Drive.driver h := by
        simp [Drive.driver, ho]
      obtain ⟨hu, hx⟩ := Images.calls_exec hg (of_decide_eq_true hcalls) (Drive.driven h)
      rw [← ha] at hc ⊢
      rw [hdriven]
      rw [← hb] at ih hrun
      obtain ⟨u, e, u', o⟩ := mv
      have hdoes : u.crashed = false ∧ UI.Does u e (u', o) := UI.step_does hmv
      have hbefore := ih hdoes.1
      cases hdoes.2 with
      | @app e r hstep =>
        have hcrash : r.1.crashed = false := by
          simp only [UI.crashed, Bool.or_eq_false_iff] at hc
          exact hc.1
        have hstored := @PictureStored.cons s₀ h m [⟨u.app, e, r.1, r.2⟩] (by rw [hdriver]; rfl)
        refine (hbefore.app (m := ⟨u.app, e, r.1, r.2⟩) hl.ui.app hrun hstep rfl hcrash
          (fun v => ?_) fun v x => ?_).mono hstored
        · simpa [UI.viewCalls, UIOutput.viewCalls] using hu v
        · simpa [UI.viewCalls, UIOutput.viewCalls] using hx v x
      | @cellForRow i row c sc profile hi hrow =>
        have hstored := @PictureStored.cons s₀ h m [] (by rw [hdriver]; rfl)
        have hrows : (Screen.friends sc).Sourced (PictureStored s₀ h) :=
          (App.sourced_of_run hl.ui.app hrun).screens i _ hi
        refine (hbefore.row (hrows profile (List.mem_of_getElem? hrow)) hc
          (fun v => ?_) fun v x => ?_).mono hstored
        · simpa [UI.viewCalls] using hu v
        · simpa [UI.viewCalls] using hx v x
    | own nv hn hf hb ha hs ho =>
      have hdriven : Drive.driven (m :: h) = nv :: Drive.driven h := by
        simp [Drive.driven, ho]
      have hdriver : Drive.driver (m :: h) = Drive.driver h := by
        simp [Drive.driver, ho]
      obtain ⟨-, hallows⟩ := Bool.and_eq_true_iff.mp hf
      rw [hs] at hc ⊢
      rw [hdriven]
      exact ((ih hc).own hallows).mono (@PictureStored.cons _ _ _ [] (by rw [hdriver]; rfl))

/-- What an image view shows was put there by hand, or loaded for the URL that the view was last
given. -/
theorem shown_of_run (hl : PictureLaunch s₀) (hr : (pictures URLWithString).machine.Run s₀ h s)
    {v : ViewId} {w : ImageView} (hw : s.2.views v = some w) {x : UIImage} (hx : w.image = some x) :
    Images.Chosen (Drive.driven h) v x ∨ ∃ url, Images.lastURL (Drive.driven h) v = some url ∧
      Images.Loaded s₀.2 (Drive.driven h) url x := by
  have hrun := Drive.run_driven hr
  rw [← Images.imageURL_of_run hl.images hrun hw]
  exact (Images.sound_of_run hl.images hrun).shown v w hw x hx

/-- In every run of the app and its pictures, the picture on a screen that shows the URL of a
picture is one that was loaded for that URL, and the URL was in a stored record; where a picture
was chosen, it was chosen on that screen or loaded for the URL that the screen opened with. -/
theorem screen_shows_stored_picture (hl : PictureLaunch s₀)
    (hr : (pictures URLWithString).machine.Run s₀ h s) (hc : s.1.crashed = false) {i : ScreenId}
    {sc : Screen} (hi : s.1.app.screens i = some sc) {w : ImageView}
    (hw : s.2.views (screenView i) = some w) {x : UIImage} (hx : w.image = some x) :
    (∃ text url, sc.picture = some (.url text) ∧ FromImage (PictureStored s₀ h) text ∧
      URLWithString text = some url ∧ Images.Loaded s₀.2 (Drive.driven h) url x) ∨
    ∃ y, sc.picture = some (.chosen y) ∧ (Images.Chosen (Drive.driven h) (screenView i) x ∨
      ∃ url, Images.lastURL (Drive.driven h) (screenView i) = some url ∧
        Images.Loaded s₀.2 (Drive.driven h) url x) := by
  have hshown := shown_of_run hl hr hw hx
  rcases (agrees_of_run hl hr hc).screens i sc hi with ⟨y, hy⟩ | ⟨hurl, hnever⟩
  · exact .inr ⟨y, hy, hshown⟩
  · obtain ⟨url, hlast, hloaded⟩ := hshown.resolve_left (hnever x)
    rw [hurl] at hlast
    obtain ⟨pic, hpic, hns⟩ := Option.bind_eq_some_iff.mp hlast
    cases pic with
    | url text =>
      have happ := appMoves_run (Drive.run_driver hr)
      have hsourced := (App.sourced_of_run hl.ui.app happ).screens i sc hi
      exact .inl ⟨text, url, hpic, hsourced.picture hpic, hns, hloaded⟩
    | chosen => cases hns

def coldStart (ids : List Uid) : UI × Images :=
  (UI.start (App.start (Service.launch (some "u") ids)), Images.launch fun _ => none)

theorem coldStart_launch (ids : List Uid) : PictureLaunch (coldStart ids) :=
  ⟨⟨App.start_launch _ _, fun _ => rfl⟩, Images.launch_launch _⟩

/-- A picture on its way from the first query to the view. -/
def loadAlone (d : DownloadId) (x : UIImage) : List (DriveEvent UIEvent ImageEvent) :=
  [.io, .main d, .addHandlers, .start d, .didComplete d (.data (some x)), .report d,
    .main (d + 1)].map .own

def uneventful (as : List Act) : List (DriveEvent UIEvent ImageEvent) :=
  (App.script 0 as).map fun e => .drive (.app e) []

def profileWithPicture : List (DriveEvent UIEvent ImageEvent) :=
  uneventful [.launch, .answer 0 (.fetched "u" (.dict (Service.signupRecord "u")))] ++
    .drive (.app ⟨.complete 0, 4, 5, "today"⟩) [.setImageWithURL 2 (some "default.jpg") 0] ::
      loadAlone 0 "D"

theorem profile_shows_stored_picture :
    let s₀ := coldStart ["u"]
    let r := ((pictures some).machine.exec [] s₀ profileWithPicture).get (by decide)
    ∃ text url, FromImage (PictureStored s₀ r.1) text ∧ some text = some url ∧
      Images.Loaded s₀.2 (Drive.driven r.1) url "D" := by
  intro s₀ r
  have hrun : (pictures some).machine.Run s₀ r.1 r.2 := Machine.exec_run _
  have hgo : r.2.1.crashed = false := by decide
  have hpic : (r.2.1.app.screens 1).bind Screen.picture = some (.url "default.jpg") := by decide
  obtain ⟨sc, hi, hsc⟩ := Option.bind_eq_some_iff.mp hpic
  have hshown : (r.2.2.views (screenView 1)).bind ImageView.image = some "D" := by decide
  obtain ⟨w, hw, hx⟩ := Option.bind_eq_some_iff.mp hshown
  rcases screen_shows_stored_picture (coldStart_launch ["u"]) hrun hgo hi hw hx with
    ⟨text, url, -, hfrom, hns, hloaded⟩ | ⟨y, hy, -⟩
  · exact ⟨text, url, hfrom, hns, hloaded⟩
  · cases hsc.symm.trans hy

/-- In every run, the name and the picture in a row of a Friends screen are those of one stored
record, however often the cell has been used for other rows. -/
theorem row_shows_one_person (hl : PictureLaunch s₀)
    (hr : (pictures URLWithString).machine.Run s₀ h s) (hc : s.1.crashed = false) {c : CellId}
    {cell : DisplayAllUsersCell} (hcell : s.1.cells c = some cell) {w : ImageView}
    (hw : s.2.views (cellView c) = some w) {x : UIImage} (hx : w.image = some x) :
    ∃ u d text url, PictureStored s₀ h u d ∧ cell.name = d .mUserName ∧
      d .mUserImgUrl = some text ∧ URLWithString text = some url ∧
      Images.Loaded s₀.2 (Drive.driven h) url x := by
  have hagrees := agrees_of_run hl hr hc
  obtain ⟨url, hlast, hloaded⟩ := (shown_of_run hl hr hw hx).resolve_left (hagrees.unpicked c x)
  obtain ⟨-, ⟨u, d, hd, rfl⟩, hname, hurl⟩ := hagrees.rows c cell hcell
  rw [hurl] at hlast
  obtain ⟨text, htext, hns⟩ := Option.bind_eq_some_iff.mp hlast
  exact ⟨u, d, text, url, hd, hname, htext, hns, hloaded⟩

def pictured (uid : Uid) : Dict :=
  Function.update (Service.signupRecord uid) .mUserImgUrl (some (uid ++ ".jpg"))

/-- The cell of the first row is used for the second while its picture is on the way. -/
def scroll : List (DriveEvent UIEvent ImageEvent) :=
  uneventful [.remoteRecord "v" (pictured "v"), .remoteRecord "w" (pictured "w"), .launch,
    .touch 5 .toggleSearch, .childAdded "v", .childAdded "w"] ++
    .drive (.cellForRow 6 0 0) [.setImageWithURL 1 (some "v.jpg") 0] ::
      [.io, .main 0, .addHandlers, .start 0].map .own ++
    .drive (.cellForRow 6 1 0) [.setImageWithURL 1 (some "w.jpg") 1] :: loadAlone 1 "W"

theorem scrolled_row_shows_one_person :
    let s₀ := coldStart ["u"]
    let r := ((pictures some).machine.exec [] s₀ scroll).get (by decide)
    ∃ u d text url, PictureStored s₀ r.1 u d ∧ some "w" = d .mUserName ∧
      d .mUserImgUrl = some text ∧ some text = some url ∧
      Images.Loaded s₀.2 (Drive.driven r.1) url "W" := by
  intro s₀ r
  have hrun : (pictures some).machine.Run s₀ r.1 r.2 := Machine.exec_run _
  have hgo : r.2.1.crashed = false := by decide
  have hcell : r.2.1.cells 0 = some ⟨6, some "w"⟩ := by decide
  have hshown : (r.2.2.views (cellView 0)).bind ImageView.image = some "W" := by decide
  obtain ⟨w, hw, hx⟩ := Option.bind_eq_some_iff.mp hshown
  exact row_shows_one_person (coldStart_launch ["u"]) hrun hgo hcell hw hx

end

end Mioto
