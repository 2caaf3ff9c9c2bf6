import Sengoo.Sgc.AstPruning
import Sengoo.Sgc.HirPruning
import Sengoo.Sgc.MirPruning

/-!
The three passes together. A declaration that is kept may mention a function in a
place no pass walks, and the function is then dropped unless it is met elsewhere.
-/

namespace Sengoo.Sgc

open Sengoo.Ast (Program)
open Sengoo.Mir (MirFunction)

section Methods

open Sengoo.Ast (Stmt)
open Sengoo.Mir (Instruction)

/-- A struct whose method calls `helper`, with this `main`. -/
def methodProgram (mainBody : List Stmt) : Program :=
  ⟨[.function (.mk "main" none none mainBody), .function (.mk "helper" none none []),
    .struct "Counter", .impl [.mk "tick" none none [.expr (.call (.ident "helper") [])]]]⟩

/-- The same module lowered. -/
def methodItems (mainBody : List Hir.HIRStmt) : List Hir.HIRItem :=
  [.function ⟨"main", none, none, .mk mainBody none⟩,
    .function ⟨"helper", none, none, .mk [] none⟩, .struct "Counter",
    .impl [⟨"tick", none, none, .mk [.expr (.call (.var "helper") [])] none⟩]]

/-- A function of one block. -/
def oneBlock (name : String) (instructions : List Instruction) : MirFunction where
  name := name
  params := []
  returnType := .unit
  locals := []
  basicBlocks := [⟨0, List.ofFn fun i : Fin instructions.length => i.val.toUInt32, some (.return none)⟩]
  instructions := instructions
  startBlock := 0
  isAsync := false

/-- Here `main` calls the method and does not mention `helper` itself. -/
def tickProgram : Program :=
  methodProgram [.expr (.methodCall (.struct ["Counter"] [] none) "tick" [])]

def tickItems : List Hir.HIRItem :=
  methodItems [.expr (.methodCall (.struct "Counter" []) "tick" [])]

/-- Where `main` calls the helper too, every pass leaves a closed program. -/
def sharedProgram : Program := methodProgram [.expr (.call (.ident "helper") [])]

def sharedItems : List Hir.HIRItem := methodItems [.expr (.call (.var "helper") [])]

def sharedMir : List MirFunction :=
  [oneBlock "main" [.call ⟨0, .temp⟩ "helper" []], oneBlock "helper" []]

end Methods

end Sengoo.Sgc
