import SmollChat.Model.LLMInference

/-! # The Kotlin class `SmollAI` over its JNI entry points

A handle is a number: `0` is the null handle and `p + 1` names the `p`-th object the
native code has allocated. A deleted object keeps its place, so that a later call with
its handle is visible. Kotlin's `assert` is disabled on Android and checks nothing. -/

namespace SmollChat

/-- An object allocated by the JNI `loadModel`, with the engine it loaded. -/
structure NativeObject where
  engine : Option Engine
  object : LLMInference
  deleted : Bool

/-- The JNI entry points that take a handle. -/
inductive NativeFn where
  | addChatMessage
  | startCompletion
  | completionLoop
  | stopCompletionInternal
  | cancelCompletionInternal
  | close
  deriving DecidableEq

/-- A call of an entry point with the handle it was given. -/
structure NativeCall where
  fn : NativeFn
  ptr : ℕ
  deriving DecidableEq

/-- The Kotlin object with the native objects and the calls made so far. -/
structure SmollAI where
  nativePtr : ℕ
  objects : List NativeObject
  calls : List NativeCall

namespace SmollAI

/-- `SmollAI()` -/
def new : SmollAI := ⟨0, [], []⟩

/-! ## Access through a handle -/

/-- The object a handle refers to. -/
def deref (s : SmollAI) (ptr : ℕ) : Option NativeObject :=
  if ptr = 0 then none else s.objects[ptr - 1]?

/-- The loaded engine and the native state behind the current handle. -/
def native (s : SmollAI) : Option (Engine × LLMInference) :=
  (s.deref s.nativePtr).bind fun o => o.engine.map fun E => (E, o.object)

/-- `messages` of the native object behind the current handle. -/
def messages (s : SmollAI) : Option (List Message) := s.native.map fun n => n.2.messages

/-- An entry point called with the current handle; a null handle is left alone. -/
def invoke (s : SmollAI) (fn : NativeFn) (f : NativeObject → NativeObject) : SmollAI :=
  { s with
    objects := if s.nativePtr = 0 then s.objects else s.objects.modify (s.nativePtr - 1) f
    calls := s.calls ++ [⟨fn, s.nativePtr⟩] }

/-- An entry point that runs an operation of the class. -/
def invokeNative (s : SmollAI) (fn : NativeFn) (f : Engine → LLMInference → LLMInference) :
    SmollAI :=
  s.invoke fn fun o =>
    match o.engine with
    | none => o
    | some E => { o with object := f E o.object }

/-! ## The operations -/

/-- The JNI `loadModel`. A failed load returns the null handle; the object that was
allocated for it stays. -/
def loadModel (s : SmollAI) (r : LLMInference.LoadRequest) (a : LLMInference.LoadAnswer) :
    ℕ × SmollAI :=
  match LLMInference.new.loadModel r a with
  | (.ok E, object) =>
      (s.objects.length + 1, { s with objects := s.objects ++ [⟨some E, object, false⟩] })
  | (.error _, object) => (0, { s with objects := s.objects ++ [⟨none, object, false⟩] })

/-- `create` -/
def create (s : SmollAI) (r : LLMInference.LoadRequest) (a : LLMInference.LoadAnswer) : SmollAI :=
  let loaded := s.loadModel r a
  { loaded.2 with nativePtr := loaded.1 }

def addChatMessage (s : SmollAI) (message role : CString) : SmollAI :=
  s.invokeNative .addChatMessage fun _ n => n.addChatMessage message role

def addUserMessage (s : SmollAI) (message : CString) : SmollAI :=
  s.addChatMessage message (.lit "user")

def addSystemPrompt (s : SmollAI) (prompt : CString) : SmollAI :=
  s.addChatMessage prompt (.lit "system")

def addAssistantMessage (s : SmollAI) (message : CString) : SmollAI :=
  s.addChatMessage message (.lit "assistant")

/-- The native `startCompletion`; a null handle is ignored. -/
def startCompletion (s : SmollAI) (query : CString) : Except Failure Unit × SmollAI :=
  ((s.native.map fun n => (n.2.startCompletion n.1 query).1).getD (.ok ()),
    s.invokeNative .startCompletion fun E n => (n.startCompletion E query).2)

/-- What the native `completionLoop` returns for the current handle. -/
def loopResult (s : SmollAI) (d : Draw) : LoopResult :=
  if s.nativePtr = 0 then .error .nullHandle
  else (s.native.map fun n => (n.2.completionLoop n.1 d).1).getD (.error .invalidState)

/-- The native `completionLoop`. -/
def completionLoop (s : SmollAI) (d : Draw) : LoopResult × SmollAI :=
  (s.loopResult d, s.invokeNative .completionLoop fun E n => (n.completionLoop E d).2)

/-- `stopCompletion`, and the call with which `getResponse` ends. -/
def stopCompletion (s : SmollAI) : SmollAI :=
  s.invokeNative .stopCompletionInternal fun E n => n.stopCompletion E

def cancelCompletion (s : SmollAI) : SmollAI :=
  s.invokeNative .cancelCompletionInternal fun E n => n.cancelCompletion E

/-- `close`: the object is destroyed and freed. -/
def close (s : SmollAI) : SmollAI :=
  s.invoke .close fun o => { o with object := o.object.destroy, deleted := true }

/-! ## Call sequences -/

/-- A call of the class's public interface, with what the engine answers to it. The steps
of collecting `getResponse` count as calls of their own. -/
inductive Call where
  | create (r : LLMInference.LoadRequest) (a : LLMInference.LoadAnswer)
  | addUserMessage (message : CString)
  | addSystemPrompt (prompt : CString)
  | addAssistantMessage (message : CString)
  | startCompletion (query : CString)
  | completionLoop (d : Draw)
  | stopCompletion
  | cancelCompletion
  | close

/-- The object after a call. -/
def call (s : SmollAI) : Call → SmollAI
  | .create r a => s.create r a
  | .addUserMessage message => s.addUserMessage message
  | .addSystemPrompt prompt => s.addSystemPrompt prompt
  | .addAssistantMessage message => s.addAssistantMessage message
  | .startCompletion query => (s.startCompletion query).2
  | .completionLoop d => (s.completionLoop d).2
  | .stopCompletion => s.stopCompletion
  | .cancelCompletion => s.cancelCompletion
  | .close => s.close

def run (s : SmollAI) (calls : List Call) : SmollAI := calls.foldl call s

/-! ## Exceptions at the boundary -/

/-- The C++ exception that the native side of a call raises, if any. Apart from
allocations only `load_model` and `start_completion` throw. -/
def thrown (s : SmollAI) : Call → Option Failure
  | .create r a =>
      match (LLMInference.new.loadModel r a).1 with
      | .ok _ => none
      | .error e => some e
  | .startCompletion query =>
      match (s.startCompletion query).1 with
      | .ok _ => none
      | .error e => some e
  | _ => none

/-- The entry points with a handler for C++ exceptions: `loadModel` returns the null
handle instead. -/
def catches : Call → Bool
  | .create _ _ => true
  | _ => false

/-- The exception that reaches the Java caller. -/
def escaping (s : SmollAI) (c : Call) : Option Failure := if catches c then none else s.thrown c

end SmollAI

/-! ## The response stream -/

/-- `NewStringUTF(result.c_str())`: the Kotlin string for a native result. -/
def LoopResult.toKotlin (r : LoopResult) : CString := .cStr r.text

/-- The literal at which the loop of `getResponse` stops. -/
def eogMarker : CString := .lit "[EOG]"

/-- A collected `getResponse`: the pieces emitted so far and whether the flow is over. -/
structure ResponseFlow where
  smollai : SmollAI
  emitted : List CString
  finished : Bool

namespace ResponseFlow

/-- One `completionLoop` call of `getResponse` with what the loop does with its result. -/
def step (f : ResponseFlow) (d : Draw) : ResponseFlow :=
  if f.finished then f
  else
    let (r, smollai) := f.smollai.completionLoop d
    if r.toKotlin = eogMarker then { f with smollai := smollai.stopCompletion, finished := true }
    else { f with smollai := smollai, emitted := f.emitted ++ [r.toKotlin] }

/-- The flow after `n` loop calls, for the engine's answers `draws`. -/
def run (f : ResponseFlow) (draws : ℕ → Draw) : ℕ → ResponseFlow
  | 0 => f
  | n + 1 => (run f draws n).step (draws n)

end ResponseFlow

/-- `getResponse` after its `startCompletion` has returned. -/
def SmollAI.getResponse (s : SmollAI) (query : CString) : ResponseFlow :=
  ⟨(s.startCompletion query).2, [], false⟩

end SmollChat
