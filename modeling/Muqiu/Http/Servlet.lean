import Muqiu.Http.Message
import Muqiu.Lib.Registrations

/-!
# Servlet dispatch

`ServletDispatch` keeps servlets under exact paths in a table and servlets under patterns in a
vector.  A path gets the servlet registered under it, or that of the first pattern that
`fnmatch` accepts for it, or the default one.

What the table and the vector hold after any calls is a matter of the calls alone: the current
registrations, the patterns in the order of their latest registration.  `fnmatch` is any
function of the pattern and the path, as C strings; it returns 0 for a match.
-/

namespace Muqiu.Http

open Registrations

/-- A `Servlet::ptr`: null, an object of the caller's, or one made here. -/
inductive Servlet where
  | null
  | object (n : Nat)
  | function (cb : Nat)
  | notFound (name : Bytes)
deriving DecidableEq, Repr

/-- The servlets by exact URI, the globs in the order of their calls, and the default. -/
structure ServletDispatch where
  m_datas : Bytes → Option Servlet
  m_globs : List (Bytes × Servlet)
  m_default : Servlet

namespace ServletDispatch

/-- The constructor. -/
def new : ServletDispatch := ⟨fun _ => none, [], .notFound (bytes "Sylar/1.0")⟩

/-- The servlet of a URI. -/
def addServlet (uri : Bytes) (slt : Servlet) (d : ServletDispatch) : ServletDispatch :=
  { d with m_datas := Function.update d.m_datas uri (some slt) }

/-- `addServlet` with a callback. -/
def addServletCb (uri : Bytes) (cb : Nat) (d : ServletDispatch) : ServletDispatch :=
  { d with m_datas := Function.update d.m_datas uri (some (.function cb)) }

/-- The loop that takes the first entry of a pattern out. -/
def eraseGlob (uri : Bytes) : List (Bytes × Servlet) → List (Bytes × Servlet)
  | [] => []
  | i :: m_globs => if i.1 = uri then m_globs else i :: eraseGlob uri m_globs

/-- The servlet of a glob, which goes to the end. -/
def addGlobServlet (uri : Bytes) (slt : Servlet) (d : ServletDispatch) : ServletDispatch :=
  { d with m_globs := eraseGlob uri d.m_globs ++ [(uri, slt)] }

/-- `addGlobServlet` with a callback. -/
def addGlobServletCb (uri : Bytes) (cb : Nat) (d : ServletDispatch) : ServletDispatch :=
  d.addGlobServlet uri (.function cb)

/-- Without the servlet of a URI. -/
def delServlet (uri : Bytes) (d : ServletDispatch) : ServletDispatch :=
  { d with m_datas := Function.update d.m_datas uri none }

/-- Without a glob. -/
def delGlobServlet (uri : Bytes) (d : ServletDispatch) : ServletDispatch :=
  { d with m_globs := eraseGlob uri d.m_globs }

/-- Another default. -/
def setDefault (v : Servlet) (d : ServletDispatch) : ServletDispatch := { d with m_default := v }

/-- The servlet of a URI, or null. -/
def getServlet (uri : Bytes) (d : ServletDispatch) : Servlet := (d.m_datas uri).getD .null

/-- The servlet of a glob, or null. -/
def getGlobServlet (uri : Bytes) (d : ServletDispatch) : Servlet :=
  ((d.m_globs.find? fun it => it.1 = uri).map Prod.snd).getD .null

/-- `!fnmatch(pattern, path, 0)` -/
def accepts (fnmatch : Bytes → Bytes → Int) (pattern uri : Bytes) : Bool :=
  fnmatch (c_str pattern) (c_str uri) = 0

/-- The servlet of the URI itself, else of the first glob that accepts it, else the default. -/
def getMatchedServlet (fnmatch : Bytes → Bytes → Int) (uri : Bytes) (d : ServletDispatch) :
    Servlet :=
  match d.m_datas uri with
  | some slt => slt
  | none =>
      match d.m_globs.find? fun it => accepts fnmatch it.1 uri with
      | some it => it.2
      | none => d.m_default

/-! ## Histories -/

/-- A call that changes the dispatcher. -/
inductive Call where
  | addServlet (uri : Bytes) (slt : Servlet)
  | addServletCb (uri : Bytes) (cb : Nat)
  | addGlobServlet (uri : Bytes) (slt : Servlet)
  | addGlobServletCb (uri : Bytes) (cb : Nat)
  | delServlet (uri : Bytes)
  | delGlobServlet (uri : Bytes)
  | setDefault (v : Servlet)
deriving DecidableEq, Repr

/-- What a call makes of the table. -/
def call (d : ServletDispatch) : Call → ServletDispatch
  | .addServlet uri slt => d.addServlet uri slt
  | .addServletCb uri cb => d.addServletCb uri cb
  | .addGlobServlet uri slt => d.addGlobServlet uri slt
  | .addGlobServletCb uri cb => d.addGlobServletCb uri cb
  | .delServlet uri => d.delServlet uri
  | .delGlobServlet uri => d.delGlobServlet uri
  | .setDefault v => d.setDefault v

/-- The dispatcher after some calls, the oldest first. -/
def run (calls : List Call) : ServletDispatch := calls.foldl call new

/-- What a call does to an exact path. -/
def dataEvent : Call → Option (Event Bytes Servlet)
  | .addServlet uri slt => some (.register uri slt)
  | .addServletCb uri cb => some (.register uri (.function cb))
  | .delServlet uri => some (.delete uri)
  | _ => none

/-- What a call does to a pattern. -/
def globEvent : Call → Option (Event Bytes Servlet)
  | .addGlobServlet uri slt => some (.register uri slt)
  | .addGlobServletCb uri cb => some (.register uri (.function cb))
  | .delGlobServlet uri => some (.delete uri)
  | _ => none

/-- A call about the default. -/
def defaultEvent : Call → Option (Event Unit Servlet)
  | .setDefault v => some (.register () v)
  | _ => none

/-- The default servlet that was set last, or the one of the constructor. -/
def defaultOf (calls : List Call) : Servlet :=
  (current defaultEvent () calls).getD (.notFound (bytes "Sylar/1.0"))

/-- The pattern is registered and accepts the path. -/
def Candidate (fnmatch : Bytes → Bytes → Int) (calls : List Call) (uri pattern : Bytes) : Prop :=
  (current globEvent pattern calls).isSome = true ∧ accepts fnmatch pattern uri = true

/-- The servlet a path should get. -/
inductive Matched (fnmatch : Bytes → Bytes → Int) (calls : List Call) (uri : Bytes) :
    Servlet → Prop where
  | exact {slt : Servlet} :
      current dataEvent uri calls = some slt → Matched fnmatch calls uri slt
  /-- The pattern that was registered first of those that accept the path. -/
  | glob {slt : Servlet} {pattern : Bytes} :
      current dataEvent uri calls = none → current globEvent pattern calls = some slt →
      accepts fnmatch pattern uri = true →
      (∀ p, Candidate fnmatch calls uri p → p ≠ pattern →
        timeAt globEvent pattern calls < timeAt globEvent p calls) →
      Matched fnmatch calls uri slt
  | default :
      current dataEvent uri calls = none → (∀ p, ¬Candidate fnmatch calls uri p) →
      Matched fnmatch calls uri (defaultOf calls)

/-! ## The fields after a history -/

theorem eraseGlob_eq (uri : Bytes) (m_globs : List (Bytes × Servlet)) :
    eraseGlob uri m_globs = erase uri m_globs := by
  induction m_globs with
  | nil => rfl
  | cons i m_globs ih =>
      rw [eraseGlob, erase, List.eraseP_cons]
      by_cases hi : i.1 = uri
      · rw [if_pos hi, decide_eq_true hi]
        rfl
      · rw [if_neg hi, decide_eq_false hi, ih]
        rfl

theorem run_concat (calls : List Call) (c : Call) : run (calls ++ [c]) = (run calls).call c :=
  List.foldl_concat ..

theorem run_m_datas (calls : List Call) (uri : Bytes) :
    (run calls).m_datas uri = current dataEvent uri calls := by
  have htable : (run calls).m_datas = calls.foldl (update dataEvent) fun _ => none := by
    induction calls using List.reverseRecOn with
    | nil => rfl
    | append_singleton calls c ih =>
        rw [run_concat, List.foldl_concat, ← ih]
        cases c <;> rfl
  rw [htable, table_eq]

theorem run_m_globs (calls : List Call) : (run calls).m_globs = replay globEvent calls := by
  induction calls using List.reverseRecOn with
  | nil => rfl
  | append_singleton calls c ih =>
      rw [run_concat, replay, List.foldl_concat, ← replay, ← ih]
      cases c with
      | addGlobServlet uri slt | addGlobServletCb uri cb =>
          exact congrArg (· ++ _) (eraseGlob_eq uri _)
      | delGlobServlet uri => exact eraseGlob_eq uri _
      | addServlet _ _ | addServletCb _ _ | delServlet _ | setDefault _ => rfl

theorem run_m_default (calls : List Call) : (run calls).m_default = defaultOf calls := by
  induction calls using List.reverseRecOn with
  | nil => rfl
  | append_singleton calls c ih =>
      rw [run_concat, defaultOf]
      cases c with
      | setDefault v =>
          have habout : about defaultEvent () (.setDefault v) = some (.register () v) :=
            about_eq_some.mpr ⟨rfl, rfl⟩
          rw [current_concat_of_some habout]
          rfl
      | _ =>
          rw [current_concat_of_none (about_of_none rfl), ← defaultOf, ← ih]
          rfl

theorem getServlet_eq (uri : Bytes) (calls : List Call) :
    (run calls).getServlet uri = (current dataEvent uri calls).getD .null := by
  rw [getServlet, run_m_datas]

theorem getGlobServlet_eq (uri : Bytes) (calls : List Call) :
    (run calls).getGlobServlet uri = (current globEvent uri calls).getD .null := by
  have hspec := replay_spec globEvent calls
  rw [getGlobServlet, run_m_globs]
  cases hfind : (replay globEvent calls).find? fun it => it.1 = uri with
  | none =>
      have hnone : current globEvent uri calls = none := by
        refine Option.eq_none_iff_forall_ne_some.mpr fun slt hslt => ?_
        have := List.find?_eq_none.mp hfind (uri, slt) ((hspec.mem uri slt).mpr hslt)
        simp at this
      rw [hnone]
      rfl
  | some it =>
      have huri : it.1 = uri := by simpa using List.find?_some hfind
      have hmem := List.mem_of_find?_eq_some hfind
      rw [← huri, (hspec.mem it.1 it.2).mp hmem]
      rfl

/-! ## Dispatch -/

/-- The dispatcher gives the servlet it should. -/
theorem getMatchedServlet_matched (fnmatch : Bytes → Bytes → Int) (calls : List Call)
    (uri : Bytes) : Matched fnmatch calls uri ((run calls).getMatchedServlet fnmatch uri) := by
  have hspec := replay_spec globEvent calls
  rw [getMatchedServlet, run_m_datas, run_m_globs, run_m_default]
  cases hdata : current dataEvent uri calls with
  | some slt => exact .exact hdata
  | none =>
      dsimp only
      cases hfind : (replay globEvent calls).find? fun it => accepts fnmatch it.1 uri with
      | none =>
          refine .default hdata ?_
          rintro p ⟨hsome, haccepts⟩
          obtain ⟨slt, hslt⟩ := Option.isSome_iff_exists.mp hsome
          exact List.find?_eq_none.mp hfind (p, slt) ((hspec.mem p slt).mpr hslt) haccepts
      | some it =>
          obtain ⟨haccepts, front, back, heq, hfront⟩ := List.find?_eq_some_iff_append.mp hfind
          have hmem := List.mem_of_find?_eq_some hfind
          refine .glob hdata ((hspec.mem it.1 it.2).mp hmem) haccepts ?_
          rintro p ⟨hsome, hp⟩ hne
          obtain ⟨slt, hslt⟩ := Option.isSome_iff_exists.mp hsome
          have hpmem := (hspec.mem p slt).mpr hslt
          have hordered := hspec.ordered
          rw [heq] at hpmem hordered
          -- what comes in front of the first match does not match
          have hback : (p, slt) ∈ back := by
            rcases List.mem_append.mp hpmem with hin | hin
            · have hnot := hfront (p, slt) hin
              rw [hp] at hnot
              exact absurd hnot (by decide)
            · exact (List.mem_cons.mp hin).resolve_left fun h => hne (congrArg Prod.fst h)
          exact (List.pairwise_cons.mp (List.pairwise_append.mp hordered).2.1).1 _ hback

/-- A path has one servlet. -/
theorem Matched.unique {fnmatch : Bytes → Bytes → Int} {calls : List Call} {uri : Bytes}
    {slt slt' : Servlet} (h : Matched fnmatch calls uri slt) (h' : Matched fnmatch calls uri slt') :
    slt = slt' := by
  cases h with
  | exact hdata =>
      cases h' with
      | exact hdata' => exact Option.some.inj (hdata.symm.trans hdata')
      | glob hnone | default hnone => rw [hdata] at hnone; cases hnone
  | @glob _ pattern hdata hglob haccepts hfirst =>
      cases h' with
      | exact hsome => rw [hdata] at hsome; cases hsome
      | @glob _ pattern' _ hglob' haccepts' hfirst' =>
          by_cases hsame : pattern = pattern'
          · subst hsame
            exact Option.some.inj (hglob.symm.trans hglob')
          · have hlt := hfirst pattern' ⟨by rw [hglob']; rfl, haccepts'⟩ (Ne.symm hsame)
            have hgt := hfirst' pattern ⟨by rw [hglob]; rfl, haccepts⟩ hsame
            exact absurd hlt (Nat.lt_asymm hgt)
      | default _ hno => exact absurd ⟨by rw [hglob]; rfl, haccepts⟩ (hno pattern)
  | default hdata hno =>
      cases h' with
      | exact hsome => rw [hdata] at hsome; cases hsome
      | @glob _ pattern _ hglob haccepts _ =>
          exact absurd ⟨by rw [hglob]; rfl, haccepts⟩ (hno pattern)
      | default => rfl

/-- After any calls the patterns are there once each, in the order of their latest registration,
and a path gets the servlet it should get and no other. -/
theorem dispatch_precedence (fnmatch : Bytes → Bytes → Int) (calls : List Call) :
    ((run calls).m_globs.map Prod.fst).Nodup ∧
      (∀ pattern slt, (pattern, slt) ∈ (run calls).m_globs ↔
        current globEvent pattern calls = some slt) ∧
      (run calls).m_globs.Pairwise
        (fun a b => timeAt globEvent a.1 calls < timeAt globEvent b.1 calls) ∧
      ∀ uri slt, (run calls).getMatchedServlet fnmatch uri = slt ↔
        Matched fnmatch calls uri slt := by
  have hspec := replay_spec globEvent calls
  rw [run_m_globs]
  refine ⟨hspec.distinct, hspec.mem, hspec.ordered, fun uri slt => ⟨?_, fun h => ?_⟩⟩
  · rintro rfl
    exact getMatchedServlet_matched fnmatch calls uri
  · exact (getMatchedServlet_matched fnmatch calls uri).unique h

end ServletDispatch

end Muqiu.Http
