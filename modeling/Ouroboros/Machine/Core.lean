/-
The language's own builtins as values, and new interpreters: a scope that binds all builtins, and an empty scope for
programs inside it.
-/
import Ouroboros.Machine.State

namespace Ouroboros

namespace Primitive

def all : List Primitive :=
  [.print, .len, .stringLength, .toString, .stringConcat, .typeOf, .isAsync, .isGpu, .getInput, .spawn, .sleep,
   .setTimeout, .clock, .graphicsInit, .createWindow, .clear, .swapBuffers, .graphicsShutdown, .registerEvent,
   .triggerEvent, .httpGet]

def name : Primitive → Bytes
  | .print => text "print"
  | .len => text "len"
  | .stringLength => text "string_length"
  | .toString => text "to_string"
  | .stringConcat => text "string_concat"
  | .typeOf => text "type_of"
  | .isAsync => text "is_async"
  | .isGpu => text "is_gpu"
  | .getInput => text "get_input"
  | .spawn => text "spawn"
  | .sleep => text "sleep"
  | .setTimeout => text "set_timeout"
  | .clock => text "clock"
  | .graphicsInit => text "graphics_init"
  | .createWindow => text "create_window"
  | .clear => text "clear"
  | .swapBuffers => text "swap_buffers"
  | .graphicsShutdown => text "graphics_shutdown"
  | .registerEvent => text "register_event"
  | .triggerEvent => text "trigger_event"
  | .httpGet => text "http_get"

/-- the number of arguments, unless any number will do -/
def arity : Primitive → Option Nat
  | .print => none
  | .clock | .swapBuffers | .graphicsShutdown => some 0
  | .stringConcat | .setTimeout | .registerEvent => some 2
  | .createWindow => some 3
  | .clear => some 4
  | _ => some 1

def builtin (p : Primitive) : Builtin := ⟨p.name, p.arity, .primitive p⟩

end Primitive

/-- the scope of the builtins as it is at the start -/
def coreTable : Table := Primitive.all.foldl (fun t p => t.insert p.name (.builtin p.builtin)) []

/-- the greatest number of nested calls unless another is chosen -/
def defaultLimit : Int := 10000

namespace Store

/-- a scope with all builtins, and an empty scope inside it: their numbers and the store with them -/
def pushCore (s : Store) : ScopeId × ScopeId × Store :=
  let core := s.scopes.size
  (core, core + 1, ⟨(s.scopes.push ⟨none, coreTable⟩).push ⟨some core, []⟩⟩)

end Store

namespace World

def newInterpreter (w : World) (limit : Int) (path : SpawnPath) : Interpreter × World :=
  let (core, global, store) := w.store.pushCore
  (⟨core, global, limit, [], [], path⟩, { w with store })

end World

end Ouroboros
