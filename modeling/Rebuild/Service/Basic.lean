import Rebuild.Cache.Basic
import Rebuild.Config.Basic
import Rebuild.Diagnostic.Basic

/-!
# Compile services

A service parses texts and builds programs. It may keep a state, which is
handed through all it does. A build asks for files one after the other and
goes on with the answers, so it is a tree of questions that ends in a program
or in a failure. A program answers for its diagnostics and emits its outputs.
-/

set_option autoImplicit false

namespace Rebuild

structure InternalError where
  reason : String
  deriving DecidableEq, Repr

def InternalError.message (e : InternalError) : String := "internal error: " ++ e.reason

structure Emission where
  writes : List (Path × ByteArray)
  writtenFiles : List Path
  diagnostics : List Diagnostic
  skipped : Bool

def Emission.ofWrites (writes : List (Path × ByteArray)) (diagnostics : List Diagnostic)
    (skipped : Bool) : Emission :=
  ⟨writes, writes.map Prod.fst, diagnostics, skipped⟩

structure Program (σ : Type) where
  syntaxDiagnostics : σ → List Diagnostic × σ
  globalDiagnostics : σ → List Diagnostic × σ
  semanticDiagnostics : σ → List Diagnostic × σ
  emit : σ → Emission × σ

/-- A build that asks for files. A file that cannot be read has no answer. -/
inductive Session (σ H : Type) where
  | finish (result : Except InternalError (Program σ)) (state : σ)
  | read (path : Path) (state : σ) (next : Option H → σ → Session σ H)

structure Service (σ H : Type) where
  parse : Parser σ H
  build : List CanonicalPath → ResolvedConfig → σ → Session σ H

inductive Verdict where
  | failed (e : InternalError)
  | malformed (found : List Diagnostic)
  | checked (found : List Diagnostic)
  | emitted (found : List Diagnostic) (emission : Emission)

namespace Program

variable {σ : Type}

/-- Diagnostics of the whole program come before those of its files. -/
def allSemantic (p : Program σ) (s : σ) : List Diagnostic × σ :=
  let (found, s) := p.globalDiagnostics s
  if found.isEmpty then p.semanticDiagnostics s else (found, s)

/-- Asks in order, and asks to emit only if the findings allow it. -/
def consult (p : Program σ) (mayEmit : List Diagnostic → Bool) (s : σ) : Verdict × σ :=
  let (found, s) := p.syntaxDiagnostics s
  if !found.isEmpty then (.malformed found, s)
  else
    let (found, s) := p.allSemantic s
    if mayEmit found then
      let (emission, s) := p.emit s
      (.emitted found emission, s)
    else (.checked found, s)

end Program

end Rebuild
