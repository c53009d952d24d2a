import Muqiu.Lib.JsonReader
import Muqiu.Log.Changes
import Muqiu.Log.Configure
import Muqiu.Log.Registry

/-!
# Configuring a logger

Runs of a program that loads texts into the `logs` variable and obtains loggers.  The listener
gives a logger what its definition says (`configure_has`), but the logger is a new one that is
entered nowhere: nobody obtains it, neither by `getLogger` nor by `SYLAR_LOG_NAME`
(`takesEffect_iff`).

`defined` records the loggers the listener has configured, the latest first.  What a failed load
and the loggers themselves write is left out.
-/

namespace Muqiu.Log

open Json (Text ascii)
open Config (ConfigVar Change)

/-! ## The variable -/

theorem LogDefine.lt_trans (a b c : LogDefine) (hab : a.lt b = true) (hbc : b.lt c = true) :
    a.lt c = true :=
  (lt_iff a c).mpr (((lt_iff a b).mp hab).trans ((lt_iff b c).mp hbc))

namespace LogDefines

/-- `std::set::insert` -/
def insert (vec : LogDefines) (d : LogDefine) : LogDefines :=
  ⟨SortedSet.insert LogDefine.lt d vec.val,
    SortedSet.sorted_insert_of_trans LogDefine.lt_trans vec.property⟩

/-- `LexicalCast<std::string, std::set<LogDefine>>` -/
def ofText (parse : Text → Option Json) (val : Text) : Option LogDefines :=
  (parse val).bind fun j =>
    (j.elements.mapM fun element =>
      (Json.dump (some 4) element).bind (LogDefine.ofText parse)).map
        fun ds => ds.foldl insert ⟨[], List.Pairwise.nil⟩

end LogDefines

/-! ## Runs -/

/-- The loggers, the variable `logs`, and the loggers that its definitions have made. -/
structure System where
  world : World
  logs : ConfigVar LogDefines
  defined : List (Text × Nat)

/-- A new manager, and `logs` with the listener of `LogIniter`. -/
def System.start (w₀ : World) : Except Fault System :=
  (newManager { w₀ with held := [] }).map fun w =>
    ⟨w, ⟨⟨[], List.Pairwise.nil⟩, [1], List.pairwise_singleton _ _⟩, []⟩

/-- The listener of `logs` is called with the old and the new value. -/
def System.notify (s : System) (c : Change LogDefines) : Except Fault System :=
  (listener c.old_value c.new_value s.world).map fun r =>
    { s with world := r.2, defined := r.1 ++ s.defined }

/-- `fromString` of `logs`, where a text that cannot be read changes nothing. -/
def System.load (parse : Text → Option Json) (val : Text) (s : System) : Except Fault System :=
  match LogDefines.ofText parse val with
  | none => .ok s
  | some v =>
      let r := s.logs.setValue LogDefines.eq v
      (r.1.foldlM System.notify s).map fun s' => { s' with logs := r.2 }

/-- The two ways to obtain a logger. -/
inductive Obtain where
  | getLogger
  | SYLAR_LOG_NAME
deriving DecidableEq, Repr

/-- A logger by its name, from the manager or a new one. -/
def Obtain.run (name : Text) : Obtain → World → Except Fault (Nat × World)
  | getLogger, w => Log.getLogger name w
  | SYLAR_LOG_NAME, w => (newLogger name w).map fun w' => (w.loggers.length, w')

/-- A configuration is loaded, or a logger is asked for. -/
inductive Act where
  | load (val : Text)
  | obtain (way : Obtain) (name : Text)
deriving DecidableEq, Repr

/-- One step. -/
def System.act (parse : Text → Option Json) (s : System) : Act → Except Fault System
  | .load val => s.load parse val
  | .obtain way name => (way.run name s.world).map fun r => { s with world := r.2 }

/-- The steps one after the other, from the start. -/
def run (parse : Text → Option Json) (w₀ : World) (acts : List Act) : Except Fault System :=
  System.start w₀ >>= fun s => acts.foldlM (System.act parse) s

/-! ## Taking effect -/

/-- The configurations of a run that were read. -/
def configurations (parse : Text → Option Json) (acts : List Act) : List LogDefines :=
  acts.filterMap fun
    | .load val => LogDefines.ofText parse val
    | .obtain _ _ => none

/-- What the configurations say of a name: its latest definition, and the level 0 and no appenders
once it is gone. -/
def latest (name : Text) (cs : List LogDefines) : Option LogDefine :=
  cs.foldl (fun seen c =>
    match c.find { name := name } with
    | some d => some d
    | none => seen.map fun _ => { name := name }) none

/-- The appender that a definition is about. -/
def LogAppenderDefine.Describes (ad : LogAppenderDefine) (p : LogAppender) : Prop :=
  p.m_level = ad.level ∧
    match p.sink with
    | .file m_name _ => ad.type = 1 ∧ m_name = ad.file
    | .stdout => ad.type = 2

/-- A logger has the level and the appenders of a definition. -/
def Has (w : World) (d : LogDefine) (n : Nat) : Prop :=
  ∃ l, w.loggers[n]? = some l ∧ l.m_level = d.level ∧
    List.Forall₂ (fun a ad => ∃ p, w.appenders[a]? = some p ∧ ad.Describes p)
      l.m_appenders d.appenders

/-- The logger that is obtained for a name after a run is the one the listener has configured, with
what the configurations say of the name, if they mention it. -/
def TakesEffect (parse : Text → Option Json) (acts : List Act) (s : System) (way : Obtain)
    (name : Text) : Prop :=
  ∀ d, latest name (configurations parse acts) = some d →
    ∃ n w', way.run name s.world = .ok (n, w') ∧ s.defined.lookup name = some n ∧ Has w' d n

theorem latest_eq_none_iff {name : Text} :
    ∀ {cs : List LogDefines} {seen : Option LogDefine},
      cs.foldl (fun seen c =>
        match c.find { name := name } with
        | some d => some d
        | none => seen.map fun _ => { name := name }) seen = none ↔
      seen = none ∧ ∀ c ∈ cs, ∀ d ∈ c.val, d.name ≠ name
  | [], seen => by simp
  | c :: cs, seen => by
      rw [List.foldl_cons, latest_eq_none_iff, List.forall_mem_cons, ← and_assoc]
      refine and_congr_left fun _ => ?_
      cases hfind : c.find { name := name } with
      | some d =>
          obtain ⟨hd, hname⟩ := find_eq_some.mp hfind
          exact iff_of_false (fun h => by cases h) fun h => h.2 d hd hname
      | none =>
          dsimp only
          rw [Option.map_eq_none_iff]
          exact ⟨fun h => ⟨h, find_eq_none.mp hfind⟩, fun h => h.1⟩

/-! ## What the listener makes -/

theorem describes_made {ad : LogAppenderDefine} (h : ad.Known) : ad.Describes ad.made := by
  refine ⟨rfl, ?_⟩
  rw [LogAppenderDefine.made]
  by_cases h₁ : ad.type = 1
  · simp only [if_pos h₁]
    exact ⟨h₁, trivial⟩
  · simp only [if_neg h₁]
    exact h.resolve_left h₁

theorem forall₂_made {w : World} : ∀ {ads : List LogAppenderDefine} (xs : List LogAppender),
    (∀ ad ∈ ads, ad.Known) → w.appenders = xs ++ ads.map LogAppenderDefine.made →
    List.Forall₂ (fun a ad => ∃ p, w.appenders[a]? = some p ∧ ad.Describes p)
      (List.range' xs.length ads.length) ads
  | [], _, _, _ => List.Forall₂.nil
  | ad :: ads, xs, h, hw => by
      rw [List.length_cons, List.range'_succ]
      refine List.Forall₂.cons ⟨ad.made, ?_, describes_made (h ad List.mem_cons_self)⟩ ?_
      · rw [hw]
        exact getElem?_concat_self xs _ _
      · have hrest := forall₂_made (w := w) (xs ++ [ad.made])
          (fun b hb => h b (List.mem_cons_of_mem ad hb))
          (by rw [hw, List.append_assoc]; rfl)
        rwa [List.length_append, List.length_singleton] at hrest

theorem configure_ok {w w' : World} (h : w.held = []) {i : LogDefine}
    (hi : configure i w = .ok w') : (∀ a ∈ i.appenders, a.Known) ∧ w' = withDefined i w := by
  by_cases hknown : ∀ a ∈ i.appenders, a.Known
  · by_cases hformatter : i.SetsFormatter
    · rw [configure_deadlock h hknown hformatter] at hi
      cases hi
    · rw [configure_eq h hknown hformatter] at hi
      exact ⟨hknown, (Except.ok.inj hi).symm⟩
  · rw [configure_null h hknown] at hi
    cases hi

/-- The new logger has what its definition says. -/
theorem configure_has {w w' : World} (h : w.held = []) {i : LogDefine}
    (hi : configure i w = .ok w') : Has w' i w.loggers.length := by
  obtain ⟨hknown, rfl⟩ := configure_ok h hi
  refine ⟨_, getElem?_concat_self w.loggers [] _, rfl, ?_⟩
  have hlen : (withLogger i.name w).appenders.length = w.appenders.length + 2 :=
    List.length_append
  have hmade := forall₂_made (w := withDefined i w) (withLogger i.name w).appenders hknown rfl
  rwa [hlen] at hmade

/-- An operation adds loggers behind those there are and enters none. -/
structure Adds (w w' : World) : Prop where
  free : w'.held = []
  registry : w'.m_loggers = w.m_loggers
  root : w'.m_root = w.m_root
  more : w.loggers.length ≤ w'.loggers.length

theorem Adds.trans {w w' w'' : World} (h : Adds w w') (h' : Adds w' w'') : Adds w w'' :=
  ⟨h'.free, h'.registry.trans h.registry, h'.root.trans h.root, h.more.trans h'.more⟩

/-- Each of the operations makes a new logger. -/
theorem forEach_adds {op : LogDefine → World → Outcome}
    (hop : ∀ {i w w'}, w.held = [] → op i w = .ok w' →
      Adds w w' ∧ w.loggers.length < w'.loggers.length) :
    ∀ {ds : List LogDefine} {w : World} {r : List (Text × Nat) × World}, w.held = [] →
      forEach op ds w = .ok r →
      Adds w r.2 ∧ ∀ e ∈ r.1, w.loggers.length ≤ e.2 ∧ e.2 < r.2.loggers.length
  | [], w, r, h, hr => by
      cases Except.ok.inj hr
      exact ⟨⟨h, rfl, rfl, Nat.le_refl _⟩, fun e he => by cases he⟩
  | i :: ds, w, r, h, hr => by
      cases hi : op i w with
      | error e =>
          rw [forEach_error hi] at hr
          cases hr
      | ok w' =>
          obtain ⟨hadds, hlt⟩ := hop h hi
          rw [forEach_ok hi] at hr
          cases hrest : forEach op ds w' with
          | error e =>
              rw [hrest] at hr
              cases hr
          | ok r' =>
              rw [hrest] at hr
              cases Except.ok.inj hr
              obtain ⟨hadds', hnew⟩ := forEach_adds hop hadds.free hrest
              refine ⟨hadds.trans hadds', fun e he => ?_⟩
              rcases List.mem_cons.mp he with rfl | hmem
              · exact ⟨Nat.le_refl _, lt_of_lt_of_le hlt hadds'.more⟩
              · exact ⟨hadds.more.trans (hnew e hmem).1, (hnew e hmem).2⟩

theorem listener_adds {old_value new_value : LogDefines} {w : World}
    {r : List (Text × Nat) × World} (h : w.held = [])
    (hr : listener old_value new_value w = .ok r) :
    Adds w r.2 ∧ ∀ e ∈ r.1, w.loggers.length ≤ e.2 ∧ e.2 < r.2.loggers.length := by
  have hlength : ∀ (w : World) (l : Logger), w.loggers.length < (w.loggers ++ [l]).length :=
    fun w l => by rw [List.length_append, List.length_singleton]; exact Nat.lt_succ_self _
  have hconfigure : ∀ {i w w'}, w.held = [] → configure i w = .ok w' →
      Adds w w' ∧ w.loggers.length < w'.loggers.length := by
    intro i w w' h hi
    obtain ⟨_, rfl⟩ := configure_ok h hi
    exact ⟨⟨h, rfl, rfl, (hlength w _).le⟩, hlength w _⟩
  have hunconfigure : ∀ {i w w'}, w.held = [] → unconfigure i w = .ok w' →
      Adds w w' ∧ w.loggers.length < w'.loggers.length := by
    intro i w w' h hi
    rw [unconfigure_eq h] at hi
    cases Except.ok.inj hi
    exact ⟨⟨h, rfl, rfl, (hlength w _).le⟩, hlength w _⟩
  rw [listener] at hr
  obtain ⟨r₁, h₁, hr⟩ := Fallible.bind_ok_iff.mp hr
  obtain ⟨hadds₁, hnew₁⟩ := forEach_adds hconfigure h h₁
  cases h₂ : forEach unconfigure (removed old_value new_value) r₁.2 with
  | error e =>
      rw [h₂] at hr
      cases hr
  | ok r₂ =>
      rw [h₂] at hr
      cases Except.ok.inj hr
      obtain ⟨hadds₂, hnew₂⟩ := forEach_adds hunconfigure hadds₁.free h₂
      refine ⟨hadds₁.trans hadds₂, fun e he => ?_⟩
      rcases List.mem_append.mp he with hmem | hmem
      · exact ⟨(hnew₁ e hmem).1, lt_of_lt_of_le (hnew₁ e hmem).2 hadds₂.more⟩
      · exact ⟨hadds₁.more.trans (hnew₂ e hmem).1, (hnew₂ e hmem).2⟩

/-! ## What is obtained -/

/-- The loggers the listener has configured are not in the registry. -/
structure System.Apart (s : System) : Prop where
  free : s.world.held = []
  root : s.world.m_root < s.world.loggers.length
  entry : ∀ e ∈ s.world.m_loggers, e.2 < s.world.loggers.length
  made : ∀ e ∈ s.defined, e.2 < s.world.loggers.length
  apart : ∀ e ∈ s.defined, e.2 ≠ s.world.m_root ∧ ∀ e' ∈ s.world.m_loggers, e'.2 ≠ e.2

theorem start_apart {w₀ : World} {s : System} (h : System.start w₀ = .ok s) : s.Apart := by
  have hnew : newLogger (ascii "root") { w₀ with held := [] } =
      .ok (withLogger (ascii "root") { w₀ with held := [] }) := newLogger_free rfl _
  rw [System.start, newManager, hnew] at h
  cases Except.ok.inj h
  have hlt : w₀.loggers.length < (withLogger (ascii "root") { w₀ with held := [] }).loggers.length
      := by
    rw [withLogger, List.length_append, List.length_singleton]
    exact Nat.lt_succ_self _
  refine ⟨rfl, hlt, fun e he => ?_, fun e he => ?_, fun e he => ?_⟩
  · rw [List.mem_singleton.mp he]
    exact hlt
  · cases he
  · cases he

/-- A logger the listener has configured is not among the others, and those it configures now are
none of the loggers there were. -/
theorem notify_apart {s s' : System} {c : Change LogDefines} (h : s.Apart)
    (hs' : s.notify c = .ok s') : s'.Apart := by
  rw [System.notify] at hs'
  cases hr : listener c.old_value c.new_value s.world with
  | error e =>
      rw [hr] at hs'
      cases hs'
  | ok r =>
      rw [hr] at hs'
      cases Except.ok.inj hs'
      obtain ⟨hadds, hnew⟩ := listener_adds h.free hr
      refine ⟨hadds.free, ?_, fun e he => ?_, fun e he => ?_, fun e he => ?_⟩
      · exact lt_of_eq_of_lt hadds.root (lt_of_lt_of_le h.root hadds.more)
      · rw [hadds.registry] at he
        exact lt_of_lt_of_le (h.entry e he) hadds.more
      · rcases List.mem_append.mp he with hmem | hmem
        · exact (hnew e hmem).2
        · exact lt_of_lt_of_le (h.made e hmem) hadds.more
      · rw [hadds.root, hadds.registry]
        rcases List.mem_append.mp he with hmem | hmem
        · have hge := (hnew e hmem).1
          exact ⟨(lt_of_lt_of_le h.root hge).ne', fun e' he' =>
            (lt_of_lt_of_le (h.entry e' he') hge).ne⟩
        · exact h.apart e hmem

theorem obtain_apart {s : System} {way : Obtain} {name : Text} {n : Nat} {w' : World}
    (h : s.Apart) (hn : way.run name s.world = .ok (n, w')) :
    ({ s with world := w' } : System).Apart ∧ ∀ e ∈ s.defined, e.2 ≠ n := by
  have hnew : newLogger name s.world = .ok (withLogger name s.world) := newLogger_free h.free name
  have hlt : s.world.loggers.length < (withLogger name s.world).loggers.length := by
    rw [withLogger, List.length_append, List.length_singleton]
    exact Nat.lt_succ_self _
  cases way with
  | SYLAR_LOG_NAME =>
      rw [Obtain.run, hnew] at hn
      cases Except.ok.inj hn
      exact ⟨⟨h.free, h.root.trans hlt, fun e he => (h.entry e he).trans hlt,
        fun e he => (h.made e he).trans hlt, h.apart⟩, fun e he => (h.made e he).ne⟩
  | getLogger =>
      rw [Obtain.run, getLogger] at hn
      cases hfind : s.world.m_loggers.lookup name with
      | some m =>
          rw [hfind] at hn
          cases Except.ok.inj hn
          refine ⟨h, fun e he heq => ?_⟩
          exact (h.apart e he).2 _ (mem_of_lookup_eq hfind) heq.symm
      | none =>
          rw [hfind] at hn
          dsimp only at hn
          rw [hnew] at hn
          cases Except.ok.inj hn
          refine ⟨⟨h.free, h.root.trans hlt, fun e he => ?_, fun e he => (h.made e he).trans hlt,
            fun e he => ⟨(h.apart e he).1, fun e' he' => ?_⟩⟩, fun e he => (h.apart e he).1⟩
          · rcases List.mem_cons.mp he with rfl | hmem
            · exact hlt
            · exact (h.entry e hmem).trans hlt
          · rcases List.mem_cons.mp he' with rfl | hmem
            · exact (h.made e he).ne'
            · exact (h.apart e he).2 e' hmem

theorem load_apart {parse : Text → Option Json} {val : Text} {s s' : System} (h : s.Apart)
    (hs' : s.load parse val = .ok s') : s'.Apart := by
  rw [System.load] at hs'
  split at hs'
  next =>
    cases Except.ok.inj hs'
    exact h
  next v _ =>
    dsimp only at hs'
    cases hfold : (s.logs.setValue LogDefines.eq v).1.foldlM System.notify s with
    | error e =>
        rw [hfold] at hs'
        cases hs'
    | ok s₁ =>
        rw [hfold] at hs'
        cases Except.ok.inj hs'
        have h₁ : s₁.Apart :=
          Fallible.foldlM_keeps System.Apart (fun hnotify hs => notify_apart hs hnotify) hfold h
        exact ⟨h₁.free, h₁.root, h₁.entry, h₁.made, h₁.apart⟩

theorem act_apart {parse : Text → Option Json} {s s' : System} {a : Act}
    (hs' : s.act parse a = .ok s') (h : s.Apart) : s'.Apart := by
  cases a with
  | load val => exact load_apart h hs'
  | obtain way name =>
      rw [System.act] at hs'
      cases hr : way.run name s.world with
      | error e =>
          rw [hr] at hs'
          cases hs'
      | ok r =>
          rw [hr] at hs'
          cases Except.ok.inj hs'
          exact (obtain_apart h hr).1

theorem run_apart {parse : Text → Option Json} {w₀ : World} {acts : List Act} {s : System}
    (h : run parse w₀ acts = .ok s) : s.Apart := by
  obtain ⟨s₀, hstart, hacts⟩ := Fallible.bind_ok_iff.mp h
  exact Fallible.foldlM_keeps System.Apart act_apart hacts (start_apart hstart)

/-- What is obtained for a name is not what the listener has configured. -/
theorem not_takesEffect {parse : Text → Option Json} {w₀ : World} {acts : List Act} {s : System}
    {way : Obtain} {name : Text} {d : LogDefine} (h : run parse w₀ acts = .ok s)
    (hd : latest name (configurations parse acts) = some d) :
    ¬ TakesEffect parse acts s way name := by
  intro htakes
  obtain ⟨n, w', hn, hdefined, _⟩ := htakes d hd
  exact (obtain_apart (run_apart h) hn).2 _ (mem_of_lookup_eq hdefined) rfl

/-- After a run the logger that is obtained for a name, in either way, is the one that is
configured exactly when no configuration that was read mentions the name. -/
theorem takesEffect_iff {parse : Text → Option Json} {w₀ : World} {acts : List Act} {s : System}
    (h : run parse w₀ acts = .ok s) (way : Obtain) (name : Text) :
    TakesEffect parse acts s way name ↔
      ∀ c ∈ configurations parse acts, ∀ d ∈ c.val, d.name ≠ name := by
  have hnone : latest name (configurations parse acts) = none ↔
      ∀ c ∈ configurations parse acts, ∀ d ∈ c.val, d.name ≠ name :=
    latest_eq_none_iff.trans (and_iff_right rfl)
  rw [← hnone]
  constructor
  · intro htakes
    cases hlatest : latest name (configurations parse acts) with
    | none => rfl
    | some d => exact absurd htakes (not_takesEffect h hlatest)
  · intro hlatest d hd
    rw [hlatest] at hd
    cases hd

/-- A configuration with one definition, and its text. -/
def oneDefine : LogDefines :=
  ⟨[{ name := ascii "a", level := .error }], List.pairwise_singleton _ _⟩

/-- The configuration with one logger at the level `error`. -/
def oneDefineText : Text := ascii "[\x7b\"level\":\"error\",\"name\":\"a\"\x7d]"

theorem oneDefine_read : LogDefines.ofText Json.read oneDefineText = some oneDefine := by
  let j : Json := .obj [(ascii "level", .str (ascii "error")), (ascii "name", .str (ascii "a"))]
  let element : Text := ascii "\x7b\n    \"level\": \"error\",\n    \"name\": \"a\"\n\x7d"
  have hdump : Json.dump none (.arr [j]) = some oneDefineText := rfl
  have helement : Json.dump (some 4) j = some element := rfl
  have hdefine : (Json.dump (some 4) j).bind (LogDefine.ofText Json.read) =
      some { name := ascii "a", level := .error } := by
    rw [helement, Option.bind_some, LogDefine.ofText, Json.read_dump helement]
    rfl
  have helements : (Json.arr [j]).elements.mapM
      (fun element => (Json.dump (some 4) element).bind (LogDefine.ofText Json.read)) =
        some [{ name := ascii "a", level := .error }] :=
    Fallible.mapM_cons_eq_some.mpr ⟨_, [], hdefine, rfl, rfl⟩
  rw [LogDefines.ofText, Json.read_dump hdump, Option.bind_some, helements]
  rfl

theorem oneDefine_load (s : System) :
    s.load Json.read oneDefineText =
      ((s.logs.setValue LogDefines.eq oneDefine).1.foldlM System.notify s).map fun s' =>
        { s' with logs := (s.logs.setValue LogDefines.eq oneDefine).2 } := by
  rw [System.load, oneDefine_read]

theorem oneDefine_configurations :
    configurations Json.read [.load oneDefineText] = [oneDefine] := by
  have hcons : ∀ cs, LogDefines.ofText Json.read oneDefineText = some cs →
      configurations Json.read [.load oneDefineText] = [cs] :=
    fun cs h => List.filterMap_cons_some h
  exact hcons oneDefine oneDefine_read

theorem oneDefine_run : ∃ s, run Json.read {} [.load oneDefineText] = .ok s := by
  obtain ⟨s₀, hs₀, hnotify⟩ : ∃ s₀, System.start {} = .ok s₀ ∧
      ∃ s, (s₀.logs.setValue LogDefines.eq oneDefine).1.foldlM System.notify s₀ = .ok s :=
    ⟨_, rfl, _, rfl⟩
  obtain ⟨s, hs⟩ := hnotify
  have hload := oneDefine_load s₀
  rw [hs] at hload
  refine ⟨{ s with logs := (s₀.logs.setValue LogDefines.eq oneDefine).2 },
    Fallible.bind_ok_iff.mpr ⟨s₀, hs₀, ?_⟩⟩
  rw [List.foldlM_cons, System.act, hload]
  rfl

/-- A name that no configuration mentions. -/
theorem unmentioned_takesEffect :
    ∃ s, run Json.read {} [.load oneDefineText] = .ok s ∧
      TakesEffect Json.read [.load oneDefineText] s .getLogger (ascii "b") := by
  obtain ⟨s, hs⟩ := oneDefine_run
  refine ⟨s, hs, (takesEffect_iff hs .getLogger (ascii "b")).mpr ?_⟩
  rw [oneDefine_configurations]
  decide

/-- The logger of the definition is not obtained for its name. -/
theorem defined_noEffect :
    ∃ s, run Json.read {} [.load oneDefineText] = .ok s ∧
      ∀ way, ¬ TakesEffect Json.read [.load oneDefineText] s way (ascii "a") := by
  obtain ⟨s, hs⟩ := oneDefine_run
  refine ⟨s, hs, fun way => not_takesEffect hs (d := { name := ascii "a", level := .error }) ?_⟩
  rw [oneDefine_configurations]
  rfl

end Muqiu.Log
