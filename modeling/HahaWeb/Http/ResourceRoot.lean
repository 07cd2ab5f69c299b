/-
  HahaWeb.Http.ResourceRoot — which files the default servlet sends.

  The path of a URL is put behind `../resource` as it was decoded. It begins with `/`
  (`path_of_success`), so the components of the result are those of the root and those of
  the path, up to a NUL. Proved: a file that is sent lies under the root exactly when the
  path, its `.` and `..` resolved, does not lead above the root, or leads back into it
  (`underRoot_iff`).
-/

import HahaWeb.Http.HttpServer
import HahaWeb.Library.Lexical

namespace HahaWeb

open Lexical (Place Step walk)

variable {D : Type} (w : World D)

/-! ## Paths of the file system -/

def component (s : Bytes) : Step Bytes := if s = [] ∨ s = lit "." then .here else if s = lit ".." then .up else .into s

def components (path : Bytes) : List (Step Bytes) := (path.splitOn 47).map component

/-- A relative path, resolved lexically. -/
def resolve (path : Bytes) : Place Bytes := walk .start (components path)

/-- The path lies under `BASE_ROOT`. -/
def UnderRoot (path : Bytes) : Prop := Place.Under (resolve Servlet.baseRoot) (resolve path)

instance (path : Bytes) : Decidable (UnderRoot path) := inferInstanceAs (Decidable (_ ∧ _))

/-- A path below the root does not lead above it, or leads back into it. -/
def Stays (path : Bytes) : Prop :=
  (resolve path).ups = 0 ∨ (resolve path).ups = 1 ∧ (resolve path).names.getLast? = some (lit "resource")

instance (path : Bytes) : Decidable (Stays path) := inferInstanceAs (Decidable (_ ∨ _))

theorem components_append (u v : Bytes) : components (u ++ 47 :: v) = components u ++ components v := by
  rw [components, List.splitOn_append_cons_self, List.map_append]
  rfl

theorem components_slash (v : Bytes) : components (47 :: v) = .here :: components v := by
  have h := components_append [] v
  rw [List.nil_append] at h
  rw [h]
  rfl

theorem resolve_baseRoot : resolve Servlet.baseRoot = ⟨1, [lit "resource"]⟩ := by decide

theorem underRoot_append (v : Bytes) : UnderRoot (Servlet.baseRoot ++ 47 :: v) ↔ Stays (47 :: v) := by
  have hsteps : resolve (Servlet.baseRoot ++ 47 :: v) = walk (resolve Servlet.baseRoot) (components v) := by
    rw [resolve, components_append, Lexical.walk_append]
    rfl
  have hpath : resolve (47 :: v) = walk .start (components v) := by
    rw [resolve, components_slash, Lexical.walk_here]
  rw [UnderRoot, Stays, hsteps, hpath, Lexical.under_walk_iff, resolve_baseRoot]
  obtain ⟨ups, names⟩ := walk .start (components v)
  rcases ups with _ | _ | ups
  · simp
  · have hlast : [lit "resource"] <:+ names ↔ names.getLast? = some (lit "resource") := by
      simp only [List.IsSuffix, List.getLast?_eq_some_iff, eq_comm]
    simp [hlast]
  · simp

/-! ## Paths of URLs -/

namespace HttpUrl

theorem parsePath_success {u u' : HttpUrl} {view : Bytes} (h : parsePath u view = .ok u') (hv : view.head? = some 47) :
    u'.path.head? = some 47 := by
  unfold parsePath at h
  cases hf : find (lit "?") view with
  | none =>
    rw [hf] at h
    cases h
    exact hv
  | some pos =>
    obtain ⟨hp, -, -⟩ := find_eq_some.mp hf
    have hpos : pos ≠ 0 := by
      intro h0
      obtain ⟨rest, hr⟩ := hp
      rw [h0, List.drop_zero] at hr
      rw [← hr] at hv
      cases hv
    simp only [hf, bind, Except.bind] at h
    split at h
    · cases h
    · split at h
      · cases h
      · cases h
        show (view.take pos).head? = some 47
        rw [List.head?_take, if_neg hpos, hv]

theorem parseHost_success {u u' : HttpUrl} {view : Bytes} (h : parseHost u view = .ok u')
    (hs : u'.state = .parseSuccess)
    (hu : u.state = .parseFail) : u'.path.head? = some 47 := by
  unfold parseHost at h
  split at h
  · cases h
    rw [hu] at hs
    cases hs
  · cases hf : find (lit "/") view with
    | none =>
      rw [hf] at h
      cases h
      rfl
    | some pos =>
      have hd := find_drop hf
      simp only [hf, removePrefix_of_le (show pos ≤ view.length by have := find_le hf; omega), bind, Except.bind] at h
      refine parsePath_success h ?_
      rw [hd]
      rfl

/-- The path of a URL that was parsed begins with a slash. -/
theorem path_of_success {url : Bytes} {u : HttpUrl} (h : ofString url = .ok u) (hs : u.state = .parseSuccess) :
    u.path.head? = some 47 := by
  have hblank : ∀ v : HttpUrl, .ok v = (.ok u : Except Fault HttpUrl) → v.state = .parseFail →
    u.path.head? = some 47 := by
    intro v hv hf
    cases hv
    rw [hf] at hs
    cases hs
  unfold ofString at h
  dsimp only at h
  split at h
  · exact hblank _ h rfl
  · unfold parseFromUrl at h
    split at h
    · split at h
      · exact hblank _ h rfl
      · split at h
        · exact hblank _ h rfl
        · simp only [bind, Except.bind] at h
          split at h
          · cases h
          · exact parseHost_success h hs rfl
    · split at h
      · exact hblank _ h rfl
      · rename_i h1
        refine parsePath_success h ?_
        cases hx : (blank (EncodeUtil.urlDecode url)).url with
        | nil =>
          rw [hx] at h1
          exact absurd (by decide) h1
        | cons c x =>
          rw [hx] at h1
          have hc : [c] = lit "/" := not_not.mp h1
          rw [List.head?_cons, (List.cons.inj hc).1]
          rfl

end HttpUrl

/-! ## The default servlet -/

theorem cStr_append {u : Bytes} (hu : 0 ∉ u) (v : Bytes) : cStr (u ++ v) = u ++ cStr v :=
  by
  refine List.takeWhile_append_of_pos ?_
  intro c hc
  have h0 : c ≠ 0 := fun h0 => hu (h0 ▸ hc)
  simpa using h0

namespace Servlet

/-- The file the default servlet sends. -/
theorem defaultServlet_file {req : HttpRequest D} {resp : HttpResponse} {setters : List Setter} {p : Bytes}
    (h : defaultServlet w req resp = .ok setters) (hp : .setFileBody p ∈ setters) : p = cStr
    (resource req.reqUrl.path) := by
  unfold defaultServlet at h
  dsimp only at h
  repeat' split at h
  all_goals
    cases h
    simp at hp
  exact hp

/-- What the default servlet sends lies under the root exactly when the path of the URL,
    up to a NUL, stays there. -/
theorem underRoot_iff {url : Bytes} {req : HttpRequest D} {resp : HttpResponse} {setters : List Setter} {p : Bytes}
    (hu : HttpUrl.ofString url = .ok req.reqUrl) (hs : req.reqUrl.state = .parseSuccess)
    (h : defaultServlet w req resp = .ok setters) (hp : .setFileBody p ∈ setters) :
    UnderRoot p ↔ Stays (cStr req.reqUrl.path) := by
  have hpath := HttpUrl.path_of_success hu hs
  obtain ⟨v, hv⟩ : ∃ v, req.reqUrl.path = 47 :: v := by
    cases hx : req.reqUrl.path with
    | nil =>
      rw [hx] at hpath
      cases hpath
    | cons c v =>
      rw [hx] at hpath
      exact ⟨v, by rw [Option.some.inj hpath]⟩
  have h0 : 0 ∉ baseRoot := by decide
  rw [defaultServlet_file w h hp, resource, cStr_append h0]
  by_cases hroot : req.reqUrl.path = lit "/"
  · rw [if_pos hroot, hroot]
    exact iff_of_true (by decide) (by decide)
  · rw [if_neg hroot, hv]
    exact underRoot_append (cStr v)

/-- A file system that has every file, all of them empty. -/
def fullWorld : World Unit := { HttpServer.bareWorld with fileExists := fun _ => true, file := fun _ => some [] }

/-- A request for a path. -/
def requestFor (path : Bytes) : HttpRequest Unit :=
  { HttpRequest.new with reqUrl := { HttpUrl.blank path with state := .parseSuccess, path := path } }

theorem underRoot_a : UnderRoot (lit "../resource/a.txt") ↔ Stays (cStr (lit "/a.txt")) :=
  @underRoot_iff Unit fullWorld (lit "/a.txt") (requestFor (lit "/a.txt")) (.new fullWorld .http11)
    [.setContentType .plain, .setFileBody (lit "../resource/a.txt")] (lit "../resource/a.txt") (by rfl) rfl (by rfl)
    (.tail _ (.head _))

/-- A path that leads out of the root. -/
theorem underRoot_dots : ¬ ∀ (w : World Unit) (url : Bytes) (req : HttpRequest Unit) (resp : HttpResponse)
    (setters : List Setter) (p : Bytes), HttpUrl.ofString url = .ok req.reqUrl → req.reqUrl.state = .parseSuccess →
    defaultServlet w req resp = .ok setters → .setFileBody p ∈ setters → UnderRoot p := by
  intro h
  have hu := h fullWorld (lit "/%2e%2e/x.txt") (requestFor (lit "/../x.txt")) (.new fullWorld .http11)
    [.setContentType .plain, .setFileBody (lit "../resource/../x.txt")] (lit "../resource/../x.txt") (by rfl) rfl
    (by rfl) (.tail _ (.head _))
  revert hu
  decide

end Servlet

end HahaWeb
