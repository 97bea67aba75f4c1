import Mathlib.Data.List.Induction
import Mathlib.Data.Set.Function
import SignalLang.Engine.Basic
import SignalLang.Proofs.Cache

/-!
# Serving requests

An engine keeps modules and a live program, a compiler keeps nothing. `Engine.Sound` says what a history of
requests leaves in an engine: what is in the cache was compiled for a request of that history, and what is live
is the last artifact of it. One request keeps this (`Sound.concat`), so a whole history does (`sound_after`).
The main statement, `answer_submit`, is that every request is then answered as if its source was compiled from
nothing, that only an answer with an artifact changes what is live or what is cached, and that later artifacts
have greater numbers.

Each request finds the files of its own time. The key of a source does not cover what the source includes, so a
request is answered with the files of some request of the same source, and these are its own files when what the
source includes has not changed.
-/

namespace SignalLang.Engine

/-- A source to compile, or one whose sender gave up before it was looked at, and the files that are there then. -/
structure Request where
  source : String
  canceled : Bool := false
  storage : Storage := {}

/-- What a compiler that keeps nothing answers. -/
def Request.answer (config : EngineConfig) (r : Request) : Except EngineError Ir.Module :=
  if r.canceled then .error .canceled else (compileFresh config r.storage r.source).mapError .compile

/-- What is relied on where work may be shared: under a key that nothing else is under way for, the work is done once,
on the engine as it is, and what it gives is handed on. Requests that are awaited come one after the other, so this is
the case for all of theirs. -/
def Sharing.DoesAlone (share : Sharing) : Prop :=
  ∀ (key : SourceKey) (work : Work) (e : Engine), share key work e = work e

/-- The engine after requests that were served one after the other. -/
def after (e : Engine) (share : Sharing) : List Request → Engine
  | [] => e
  | r :: rs => (e.submit r.source r.canceled r.storage share).2.after share rs

/-- The artifacts of the requests that succeed, the first one first. -/
def artifacts (e : Engine) (share : Sharing) : List Request → List Artifact
  | [] => []
  | r :: rs =>
    (e.submit r.source r.canceled r.storage share).1.result.toOption.toList ++
      (e.submit r.source r.canceled r.storage share).2.artifacts share rs

variable {e e' : Engine} {r : Request} {rs : List Request} {s : Submission} {key : SourceKey} {source : String}
  {storage : Storage} {share : Sharing}

theorem after_append (rs rs' : List Request) : e.after share (rs ++ rs') = (e.after share rs).after share rs' := by
  induction rs generalizing e with
  | nil => rfl
  | cons r rs ih => exact ih

theorem artifacts_append (rs rs' : List Request) :
    e.artifacts share (rs ++ rs') = e.artifacts share rs ++ (e.after share rs).artifacts share rs' := by
  induction rs generalizing e with
  | nil => rfl
  | cons r rs ih => simp only [List.cons_append, artifacts, after, ih, List.append_assoc]

/-- The artifacts of a history with one more request. -/
theorem artifacts_concat (rs : List Request) (r : Request) :
    e.artifacts share (rs ++ [r]) = e.artifacts share rs ++
      ((e.after share rs).submit r.source r.canceled r.storage share).1.result.toOption.toList := by
  simp [artifacts_append, artifacts]

/-! ### What one request can do -/

/-- The module is in the cache, or the source is broken, or it is compiled now and kept. -/
inductive Fetches (e : Engine) (key : SourceKey) (source : String) (storage : Storage) :
    Except CompileError CompiledModule → Engine → Prop where
  | hit {m : CompiledModule} {cache : Cache SourceKey CompiledModule} (h : e.cache.get key = (some m, cache)) :
      Fetches e key source storage (.ok m) { e with cache := cache }
  | broken {err : CompileError} (h : compileFresh e.config storage source = .error err) :
      Fetches e key source storage (.error err) e
  | fresh {m : Ir.Module} (h : compileFresh e.config storage source = .ok m) :
      Fetches e key source storage (.ok ⟨e.compiled, m⟩)
        { e with compiled := e.compiled + 1, cache := e.cache.put key ⟨e.compiled, m⟩ }

theorem fetches_moduleFor (hshare : share.DoesAlone) (e : Engine) (key : SourceKey) (source : String)
    (storage : Storage) :
    Fetches e key source storage (e.moduleFor key source storage share).1
      (e.moduleFor key source storage share).2.1 := by
  cases hk : e.cache.get key with
  | mk found cache =>
    cases found with
    | some m => simpa only [moduleFor, hk] using Fetches.hit hk
    | none =>
      -- a miss leaves the cache as it was, so the second look misses too
      obtain rfl := Cache.eq_of_get_none hk
      have alone := hshare key (moduleMissed key source storage) e
      cases hc : compileFresh e.config storage source with
      | error err => simpa only [moduleFor, hk, alone, moduleMissed, hc] using Fetches.broken hc
      | ok m => simpa only [moduleFor, hk, alone, moduleMissed, hc] using Fetches.fresh hc

/-- The request was canceled, or its source is broken, or its artifact becomes live. -/
inductive Serves (e : Engine) (r : Request) : Submission → Engine → Prop where
  | canceled {events : List EngineEvent} (h : r.canceled = true) :
      Serves e r ⟨.error .canceled, false, events⟩ { e with seq := e.seq + 1 }
  | broken {err : CompileError} {events : List EngineEvent} {e' : Engine} (h : r.canceled = false)
      (hf : Fetches { e with seq := e.seq + 1 } (e.config.keyOf r.source) r.source r.storage (.error err) e') :
      Serves e r ⟨.error (.compile err), false, events⟩ e'
  | published {m : CompiledModule} {events : List EngineEvent} {e' : Engine} (h : r.canceled = false)
      (hf : Fetches { e with seq := e.seq + 1 } (e.config.keyOf r.source) r.source r.storage (.ok m) e') :
      Serves e r ⟨.ok ⟨e.config.keyOf r.source, m, e'.seq⟩, true, events⟩
        { e' with live := some ⟨e.config.keyOf r.source, m, e'.seq⟩ }

/-- A fetch changes the cache and the count of modules, nothing else. -/
theorem Fetches.frame {x : Except CompileError CompiledModule} (h : Fetches e key source storage x e') :
    e'.config = e.config ∧ e'.seq = e.seq ∧ e'.live = e.live := by
  cases h <;> exact ⟨rfl, rfl, rfl⟩

/-- An artifact that no later one precedes is made live. -/
theorem publish_of_le {a : Artifact} (h : ∀ b, e.live = some b → b.seq ≤ a.seq) :
    e.publish a = (true, { e with live := some a }) := by
  have hany : e.live.any (·.seq > a.seq) = false := by
    cases hl : e.live with
    | none => rfl
    | some b => simpa using h b hl
  simp [publish, hany]

/-- No artifact that is live has a number the engine did not give yet. -/
theorem serves_submit (hshare : share.DoesAlone) (hlive : ∀ a, e.live = some a → a.seq ≤ e.seq) (r : Request) :
    Serves e r (e.submit r.source r.canceled r.storage share).1 (e.submit r.source r.canceled r.storage share).2 := by
  cases hr : r.canceled with
  | true => exact .canceled hr
  | false =>
    have hf := fetches_moduleFor hshare { e with seq := e.seq + 1 } (e.config.keyOf r.source) r.source r.storage
    cases hgot : moduleFor { e with seq := e.seq + 1 } (e.config.keyOf r.source) r.source r.storage share with
    | mk x rest =>
      obtain ⟨e', events⟩ := rest
      rw [hgot] at hf
      cases x with
      | error err => simpa only [submit, Bool.false_eq_true, if_false, hgot] using Serves.broken hr hf
      | ok m =>
        obtain ⟨-, hseq, hl⟩ := hf.frame
        have hpublish := publish_of_le (e := e') (a := ⟨e.config.keyOf r.source, m, e'.seq⟩) (fun b hb =>
          (hlive b (hl ▸ hb)).trans (hseq ▸ Nat.le_succ _))
        simpa only [submit, Bool.false_eq_true, if_false, hgot, hpublish] using Serves.published hr hf

/-- A broken source leaves everything as it was. -/
theorem Fetches.eq_of_error {err : CompileError} (h : Fetches e key source storage (.error err) e') : e' = e := by
  cases h; rfl

/-- The only entry that is new holds what was compiled. -/
theorem Fetches.cached {x : Except CompileError CompiledModule} (h : Fetches e key source storage x e')
    (bounded : e.cache.Bounded) {entry : SourceKey × CompiledModule} (hentry : entry ∈ e'.cache.entries) :
    entry ∈ e.cache.entries ∨ entry.1 = key ∧ compileFresh e.config storage source = .ok entry.2.module := by
  cases h with
  | hit hk => exact .inl ((Cache.mem_of_get bounded.toLinked hk).2 entry hentry)
  | broken _ => exact .inl hentry
  | fresh hc =>
    rcases Cache.eq_or_mem_of_mem_put bounded hentry with rfl | ⟨hmem, -⟩
    · exact .inr ⟨rfl, hc⟩
    · exact .inl hmem

/-- The cache stays within its limit, and its index agrees with its order. -/
theorem Fetches.bounded {x : Except CompileError CompiledModule} (h : Fetches e key source storage x e')
    (bounded : e.cache.Bounded) : e'.cache.Bounded := by
  cases h with
  | hit hk =>
    have used := bounded.get key
    rwa [hk] at used
  | broken _ => exact bounded
  | fresh _ => exact bounded.put key _

/-- A fetch gives what compiling gives, or what is cached under the key. -/
theorem Fetches.map_module {x : Except CompileError CompiledModule} (h : Fetches e key source storage x e')
    (bounded : e.cache.Bounded) :
    x.map (·.module) = compileFresh e.config storage source ∨
      ∃ entry ∈ e.cache.entries, entry.1 = key ∧ x.map (·.module) = .ok entry.2.module := by
  cases h with
  | hit hk => exact .inr ⟨_, (Cache.mem_of_get bounded.toLinked hk).1, rfl, rfl⟩
  | broken hc => exact .inl hc.symm
  | fresh hc => exact .inl hc.symm

theorem exists_artifact {m : Ir.Module}
    (h : s.result.map (·.compiled.module) = (.ok m : Except EngineError Ir.Module)) :
    ∃ a, s.result = .ok a ∧ a.compiled.module = m := by
  cases hr : s.result with
  | error err =>
    rw [hr] at h
    cases h
  | ok a =>
    rw [hr] at h
    exact ⟨a, rfl, Except.ok.inj h⟩

theorem Serves.of_ok (hs : Serves e r s e') {a : Artifact} (ha : s.result = .ok a) :
    a.key = e.config.keyOf r.source ∧ a.seq = e'.seq ∧ s.published = true ∧ e'.live = some a := by
  cases hs with
  | canceled _ => cases ha
  | broken _ _ => cases ha
  | published _ _ => cases ha; exact ⟨rfl, rfl, rfl, rfl⟩

theorem Serves.of_error (hs : Serves e r s e') {err : EngineError} (herr : s.result = .error err) :
    s.published = false ∧ e'.live = e.live ∧ e'.cache = e.cache := by
  cases hs with
  | canceled _ => exact ⟨rfl, rfl, rfl⟩
  | broken _ hf => obtain rfl := hf.eq_of_error; exact ⟨rfl, rfl, rfl⟩
  | published _ _ => cases herr

/-! ### What a history leaves -/

/-- An engine after a history, and the artifacts of that history. -/
structure Sound (config : EngineConfig) (rs : List Request) (e : Engine) (made : List Artifact) : Prop where
  config_eq : e.config = config
  seq_eq : e.seq = rs.length
  live_eq : e.live = made.getLast?
  bounded : e.cache.Bounded
  cached : ∀ entry ∈ e.cache.entries, ∃ q ∈ rs, q.canceled = false ∧
    entry.1 = config.keyOf q.source ∧ compileFresh config q.storage q.source = .ok entry.2.module
  seq_le : ∀ a ∈ made, a.seq ≤ e.seq
  increasing : made.Pairwise (·.seq < ·.seq)

variable {config : EngineConfig} {made : List Artifact}

theorem sound_new (config : EngineConfig) : Sound config [] (new config) [] where
  config_eq := rfl
  seq_eq := rfl
  live_eq := rfl
  bounded := .new config.cacheSize
  cached := nofun
  seq_le := by simp
  increasing := .nil

theorem Sound.live_le (h : Sound config rs e made) (a : Artifact) (ha : e.live = some a) : a.seq ≤ e.seq :=
  h.seq_le a (List.mem_of_getLast? (h.live_eq ▸ ha))

/-- A request without an artifact takes a number. -/
theorem Sound.skip (h : Sound config rs e made) (r : Request) :
    Sound config (rs ++ [r]) { e with seq := e.seq + 1 } made where
  config_eq := h.config_eq
  seq_eq := by simp [h.seq_eq]
  live_eq := h.live_eq
  bounded := h.bounded
  cached entry hentry := by
    obtain ⟨q, hmem, hfrom⟩ := h.cached entry hentry
    exact ⟨q, List.mem_append_left _ hmem, hfrom⟩
  seq_le a ha := (h.seq_le a ha).trans (Nat.le_succ _)
  increasing := h.increasing

/-- One more request keeps it. -/
theorem Sound.concat (h : Sound config rs e made) (hs : Serves e r s e') :
    Sound config (rs ++ [r]) e' (made ++ s.result.toOption.toList) := by
  have hskip := h.skip r
  cases hs with
  | canceled _ => simpa [Except.toOption] using hskip
  | broken hr hf =>
    obtain rfl := hf.eq_of_error
    simpa [Except.toOption] using hskip
  | @published m _ now hr hf =>
    obtain ⟨hconfig, hseq, -⟩ := hf.frame
    have hbefore : ∀ a ∈ made, a.seq < now.seq := fun a ha => hseq ▸ Nat.lt_succ_of_le (h.seq_le a ha)
    refine ⟨hconfig.trans hskip.config_eq, hseq.trans hskip.seq_eq, by simp [Except.toOption],
      hf.bounded hskip.bounded, ?_, ?_, ?_⟩
    · intro entry hentry
      rcases hf.cached hskip.bounded hentry with hold | ⟨hkey, hc⟩
      · exact hskip.cached entry hold
      · rw [h.config_eq] at hkey hc
        exact ⟨r, by simp, hr, hkey, hc⟩
    · simpa [Except.toOption, or_imp, forall_and] using fun a ha => (hbefore a ha).le
    · simpa [Except.toOption, List.pairwise_append, h.increasing] using hbefore

/-- A whole history keeps it. -/
theorem sound_after (hshare : share.DoesAlone) (config : EngineConfig) (rs : List Request) :
    Sound config rs ((new config).after share rs) ((new config).artifacts share rs) := by
  induction rs using List.reverseRecOn with
  | nil => exact sound_new config
  | append_singleton rs r ih =>
    rw [after_append, artifacts_concat]
    exact ih.concat (serves_submit hshare ih.live_le r)

/-! ### The answers -/

/-- A submission is answered as a compiler that keeps nothing answers it, or answered an earlier request of its
source. -/
theorem Sound.answer (h : Sound config rs e made) (hs : Serves e r s e')
    (hkeys : Set.InjOn config.keyOf {source | ∃ q ∈ rs ++ [r], q.canceled = false ∧ q.source = source}) :
    ∃ q ∈ rs ++ [r], q.canceled = r.canceled ∧ q.source = r.source ∧
      s.result.map (·.compiled.module) = q.answer config := by
  cases hr : r.canceled with
  | true =>
    refine ⟨r, by simp, hr, rfl, ?_⟩
    rw [Request.answer, if_pos hr]
    cases hs with
    | canceled _ => rfl
    | broken hr' _ => cases hr.symm.trans hr'
    | published hr' _ => cases hr.symm.trans hr'
  | false =>
    have fetched {x : Except CompileError CompiledModule} {e' : Engine}
        (hf : Fetches { e with seq := e.seq + 1 } (e.config.keyOf r.source) r.source r.storage x e') :
        ∃ q ∈ rs ++ [r], q.canceled = false ∧ q.source = r.source ∧
          (x.map (·.module)).mapError .compile = q.answer config := by
      rcases hf.map_module h.bounded with fresh | ⟨entry, hentry, hkey, hgot⟩
      · refine ⟨r, by simp, hr, rfl, ?_⟩
        rw [fresh, Request.answer, hr, ← h.config_eq]
        rfl
      · -- the keys tell the sources apart, so what is cached under the key of the source is compiled from it
        obtain ⟨q, hq, alive, hkey', hc⟩ := (h.skip r).cached entry hentry
        have hsource : q.source = r.source :=
          hkeys ⟨q, hq, alive, rfl⟩ ⟨r, by simp, hr, rfl⟩ (hkey'.symm.trans (hkey.trans (by rw [h.config_eq])))
        refine ⟨q, hq, alive, hsource, ?_⟩
        rw [hgot, Request.answer, alive, hc]
        rfl
    cases hs with
    | canceled hr' => cases hr.symm.trans hr'
    | broken _ hf => exact fetched hf
    | published _ hf => exact fetched hf

/-- After any history, the next request is answered as if its source was compiled from nothing: with the files that a
request of this source found, and so with its own files if the earlier requests of this source found the same. A request
with an artifact makes that artifact live under its own number, any other leaves what is live and what is cached as it
was. So the artifact of the last request that had one is live, and numbers grow. -/
theorem answer_submit (config : EngineConfig) (share : Sharing) (hshare : share.DoesAlone) (past : List Request)
    (r : Request)
    (hkeys : Set.InjOn config.keyOf {source | ∃ q ∈ past ++ [r], q.canceled = false ∧ q.source = source}) :
    let before := (new config).after share past
    let s := (before.submit r.source r.canceled r.storage share).1
    let now := (before.submit r.source r.canceled r.storage share).2
    (∃ q ∈ past ++ [r], q.canceled = r.canceled ∧ q.source = r.source ∧
      s.result.map (·.compiled.module) = q.answer config) ∧
    ((∀ q ∈ past, q.canceled = false → q.source = r.source → q.storage = r.storage) →
      s.result.map (·.compiled.module) = r.answer config) ∧
    (∀ a, s.result = .ok a →
      a.key = config.keyOf r.source ∧ a.seq = now.seq ∧ s.published = true ∧ now.live = some a) ∧
    (∀ err, s.result = .error err →
      s.published = false ∧ now.live = before.live ∧ now.cache = before.cache) ∧
    now.live = ((new config).artifacts share (past ++ [r])).getLast? ∧
    before.seq < now.seq ∧ ((new config).artifacts share (past ++ [r])).Pairwise (·.seq < ·.seq) := by
  intro before s now
  have hbefore : Sound config past before _ := sound_after hshare config past
  have hs : Serves before r s now := serves_submit hshare hbefore.live_le r
  have hnow : Sound config (past ++ [r]) now ((new config).artifacts share (past ++ [r])) := by
    rw [artifacts_concat]
    exact hbefore.concat hs
  have hseq : before.seq < now.seq := by
    rw [hbefore.seq_eq, hnow.seq_eq, List.length_append]
    exact Nat.lt_succ_self _
  have answered := hbefore.answer hs hkeys
  refine ⟨answered, fun unchanged => ?_, fun a ha => hbefore.config_eq ▸ hs.of_ok ha, fun _ => hs.of_error,
    hnow.live_eq, hseq, hnow.increasing⟩
  obtain ⟨q, hq, canceled, source, eq⟩ := answered
  rw [eq, Request.answer, Request.answer, canceled, source]
  cases hr : r.canceled with
  | true => rfl
  | false =>
    rcases List.mem_append.1 hq with earlier | this
    · rw [unchanged q earlier (canceled.trans hr) source]
    · rw [List.mem_singleton.1 this]

/-- A source that compiles, one that does not, a canceled request after files have gone, and the first source again with
the files that it found before. -/
theorem answer_submit_again :
    let good := "output INT o;\no = 1;\n"
    let files : Storage := { files := [("lib/k", "INT k = 1;\n")] }
    let past : List Request := [⟨good, false, files⟩, ⟨"o = 1;\n", false, {}⟩, ⟨good, true, {}⟩]
    Sharing.alone.DoesAlone ∧
    Set.InjOn SourceKey.of
      {source | ∃ q ∈ past ++ [⟨good, false, files⟩], q.canceled = false ∧ q.source = source} ∧
    ∃ a, (((new {}).after .alone past).submit good false files .alone).1.result = .ok a ∧
      (((new {}).after .alone past).submit good false files .alone).2.live = some a ∧
      compileFresh {} files good = .ok a.compiled.module := by
  intro good files past
  have hkey : SourceKey.of good ≠ SourceKey.of "o = 1;\n" := by decide +kernel
  have sources : ∀ q ∈ past ++ [(⟨good, false, files⟩ : Request)], q.canceled = false →
      q.source = good ∨ q.source = "o = 1;\n" := by
    simp only [past, List.cons_append, List.nil_append, List.forall_mem_cons]
    exact ⟨fun _ => .inl trivial, fun _ => .inr trivial, nofun, fun _ => .inl trivial, nofun⟩
  have pair : Set.InjOn SourceKey.of {good, "o = 1;\n"} := Set.injOn_pair.2 fun h => absurd h hkey
  have hkeys : Set.InjOn SourceKey.of
      {source | ∃ q ∈ past ++ [⟨good, false, files⟩], q.canceled = false ∧ q.source = source} := by
    refine pair.mono ?_
    rintro _ ⟨q, hq, alive, rfl⟩
    exact sources q hq alive
  have unchanged : ∀ q ∈ past, q.canceled = false → q.source = good → q.storage = files := by
    simp only [past, List.forall_mem_cons]
    exact ⟨fun _ _ => trivial, fun _ h => absurd (congrArg SourceKey.of h.symm) hkey, nofun, nofun⟩
  have served := answer_submit {} .alone (fun _ _ _ => rfl) past ⟨good, false, files⟩ hkeys
  dsimp only at served
  obtain ⟨-, answer, live, -⟩ := served
  have answer := answer unchanged
  rw [Request.answer, if_neg Bool.false_ne_true] at answer
  have compiles : (compileFresh {} files good).toOption.isSome = true := by decide +kernel
  obtain ⟨m, hc⟩ : ∃ m, compileFresh {} files good = .ok m := by
    cases hc : compileFresh {} files good with
    | error err =>
      rw [hc] at compiles
      cases compiles
    | ok m => exact ⟨m, rfl⟩
  rw [hc, Except.mapError] at answer
  obtain ⟨a, ha, rfl⟩ := exists_artifact answer
  exact ⟨fun _ _ _ => rfl, hkeys, a, ha, (live a ha).2.2.2, hc⟩

end SignalLang.Engine
