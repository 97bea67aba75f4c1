import SignalLang.Compiler
import SignalLang.Digest.Blake2b
import SignalLang.Engine.Cache

/-!
# The engine

An engine compiles sources and publishes the result for a real-time side to pick up. What failed is not
published, so the last program that compiled stays live. A source that was compiled a short while ago is
taken from a cache by the digest of its text. The files that a source includes are read when it is compiled, so they
come with every submission; the digest does not cover them.
-/

namespace SignalLang

/-- The digest of a source. -/
abbrev SourceKey := List UInt8

namespace SourceKey

/-- The key that sources have unless an engine is given another hash. -/
def of (source : String) : SourceKey := Digest.blake2b source.toUTF8.toList

/-- The first eight bytes in hexadecimal. -/
def text (k : SourceKey) : String := String.join ((k.take 8).map fun b => Text.hexDigits 2 b.toNat)

end SourceKey

/-- How an engine compiles, how many modules it keeps, and the hash that it tells sources apart by. -/
structure EngineConfig where
  options : Options := {}
  cacheSize : Int := 16
  keyOf : String → SourceKey := .of

/-- Nothing is asked for: no unrolling, no checks, no name, no cache. -/
def EngineConfig.zero : EngineConfig :=
  { options := { staging := ⟨false, 0⟩, validate := false, moduleName := "" }, cacheSize := 0 }

/-- A module with the number of the compilation it came from. -/
structure CompiledModule where
  number : Nat
  module : Ir.Module

/-- A published program. Later submissions have greater numbers. -/
structure Artifact where
  key : SourceKey
  compiled : CompiledModule
  seq : Nat

/-- Why a submission produced nothing. -/
inductive EngineError where
  | canceled
  | compile (e : CompileError)

/-- The one-line form. -/
def EngineError.message : EngineError → String
  | .canceled => "context canceled"
  | .compile e => e.message

/-- What an engine reports while it works. -/
inductive EngineEvent where
  | cacheHit (key : SourceKey)
  | compiling (key : SourceKey) (bytes : Nat)
  | failed (key : SourceKey) (e : EngineError)
  | published (key : SourceKey) (seq : Nat)
  | stale (key : SourceKey) (seq : Nat)

/-- The log line of an event. -/
def EngineEvent.line (e : EngineEvent) : String :=
  let said :=
    match e with
    | .cacheHit key => s!"cache hit for {key.text}"
    | .compiling key bytes => s!"compiling {key.text} ({bytes} bytes)"
    | .failed key e => s!"compile {key.text} failed: {e.message}"
    | .published key seq => s!"published {key.text} (submission {seq})"
    | .stale key seq => s!"dropped {key.text}: submission {seq} is stale"
  "[engine] " ++ said ++ "\n"

/-- An engine. -/
structure Engine where
  config : EngineConfig := {}
  /-- The number of the last submission. -/
  seq : Nat := 0
  /-- The number of modules compiled so far. -/
  compiled : Nat := 0
  cache : Cache SourceKey CompiledModule
  live : Option Artifact := none

/-- What a submission led to. -/
structure Submission where
  result : Except EngineError Artifact
  /-- Whether the artifact became live. -/
  published : Bool
  events : List EngineEvent

namespace Engine

/-- Work on an engine that gives a module, with what is reported on the way. -/
abbrev Work := Engine → Except CompileError CompiledModule × Engine × List EngineEvent

/-- How work is done that several may ask for under one key at the same time. -/
abbrev Sharing := SourceKey → Work → Work

/-- Work under a key that nobody else asks for is just done. -/
def Sharing.alone : Sharing := fun _ work => work

/-- An engine that has compiled nothing. -/
def new (config : EngineConfig) : Engine := { config := config, cache := .new config.cacheSize }

/-- Compiles a source from nothing, with the files as they are in the storage. -/
def compileFresh (config : EngineConfig) (storage : Storage) (source : String) : Except CompileError Ir.Module :=
  let c := (Compiler.new config.options storage).addSource "main.ns" source
  ((Compiler.moduleOf "main.ns").run c).1

/-- The module of a source that was not in the cache when it was asked for. A compilation of the same source may
have ended since; if none has, the source is compiled now. -/
def moduleMissed (key : SourceKey) (source : String) (storage : Storage) : Work := fun e =>
  match e.cache.get key with
  | (some m, cache) => (.ok m, { e with cache := cache }, [])
  | (none, _) =>
    let events := [EngineEvent.compiling key source.utf8ByteSize]
    match compileFresh e.config storage source with
    | .error err => (.error err, e, events)
    | .ok m =>
      let compiled : CompiledModule := ⟨e.compiled, m⟩
      (.ok compiled, { e with compiled := e.compiled + 1, cache := e.cache.put key compiled }, events)

/-- The module of a source, from the cache or compiled now. -/
def moduleFor (e : Engine) (key : SourceKey) (source : String) (storage : Storage) (share : Sharing) :
    Except CompileError CompiledModule × Engine × List EngineEvent :=
  match e.cache.get key with
  | (some m, cache) => (.ok m, { e with cache := cache }, [.cacheHit key])
  | (none, cache) => share key (moduleMissed key source storage) { e with cache := cache }

/-- Makes an artifact live, unless a later submission is. -/
def publish (e : Engine) (a : Artifact) : Bool × Engine :=
  if e.live.any (·.seq > a.seq) then (false, e) else (true, { e with live := some a })

/-- Compiles a source and publishes it, with the files as they are in the storage now. A submission that was canceled
beforehand only takes a number. -/
def submit (e : Engine) (source : String) (canceled : Bool) (storage : Storage := {}) (share : Sharing := .alone) :
    Submission × Engine :=
  let e := { e with seq := e.seq + 1 }
  if canceled then (⟨.error .canceled, false, []⟩, e)
  else
    let key := e.config.keyOf source
    match e.moduleFor key source storage share with
    | (.error err, e, events) =>
      (⟨.error (.compile err), false, events ++ [.failed key (.compile err)]⟩, e)
    | (.ok m, e, events) =>
      let a : Artifact := ⟨key, m, e.seq⟩
      let (published, e) := e.publish a
      let outcome := if published then EngineEvent.published key a.seq else .stale key a.seq
      (⟨.ok a, published, events ++ [outcome]⟩, e)

end Engine

end SignalLang
