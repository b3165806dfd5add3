/-
  Sample host functions: one for each form of parameter and result, some that registration refuses,
  and some that change the machine that calls them.
-/
import Parlance.Machine
import Parlance.Native.Builtins

namespace Parlance.Native

def wrapped (bits : Nat) (n : Int) : Int := n.bmod (Nat.pow 2 bits)

def typedSamples : List (String × HostFunction) := [
  ("add", onNumbers (· + ·)),
  ("addint", {
    signature := { parameters := [.whole, .whole], results := [.whole] }
    run
      | [.whole a, .whole b] => pure (.ok (.whole (wrapped 64 (a + b))))
      | _ => Exec.fault }),
  ("concat", {
    signature := { parameters := [.text, .text], results := [.text] }
    run
      | [.text a, .text b] => pure (.ok (.text (a ++ b)))
      | _ => Exec.fault }),
  ("not", {
    signature := { parameters := [.truth], results := [.truth] }
    run
      | [.truth b] => pure (.ok (.truth !b))
      | _ => Exec.fault }),
  ("ident", {
    signature := { parameters := [.any], results := [.any] }
    run
      | [.any v] => pure (.ok (.any v))
      | _ => Exec.fault }),
  ("nothing", { signature := {}, run := fun _ => pure (.ok .nothing) }),
  ("fail", {
    signature := { parameters := [.text], results := [.failure] }
    run
      | [.text s] => pure (if s.isEmpty then .ok .nothing else .error s)
      | _ => Exec.fault }),
  ("divide", {
    signature := { parameters := [.number, .number], results := [.number, .failure] }
    run
      | [.number a, .number b] =>
        pure (if b == 0 then .error "diviseur nul" else .ok (.number (a / b)))
      | _ => Exec.fault }),
  ("interrupt", {
    signature := { parameters := [.machine] }
    run := fun _ => do
      modify fun m => { m with interrupted := true }
      pure (.ok .nothing) }),
  ("panic", {
    signature := { parameters := [.text] }
    run
      | [.text s] => throw (.fault (.host s))
      | _ => Exec.fault }),
  ("depth", {
    signature := { parameters := [.machine], results := [.whole] }
    run := fun _ => do pure (.ok (.whole (← get).stack.depth)) }),
  ("frames", {
    signature := { parameters := [.machine], results := [.whole] }
    run := fun _ => do pure (.ok (.whole (← get).frames.size)) }),
  ("collect", {
    signature := { parameters := [.machine] }
    run := fun _ => do
      Exec.collect
      pure (.ok .nothing) }),
  ("small", {
    signature := { parameters := [.whole], results := [.whole] }
    run
      | [.whole n] => pure (.ok (.whole (wrapped 8 n)))
      | _ => Exec.fault }),
  ("single", onNumber fun x => x.toFloat32.toFloat),
  ("celsius", onNumber (2 * ·)),
  ("mix", {
    signature := { parameters := [.machine, .whole, .text, .truth, .any], results := [.text] }
    run
      | [.whole n, .text s, .truth b, .any v] => do
        let truth := if b then "true" else "false"
        pure (.ok (.text (toString n ++ "|" ++ s ++ "|" ++ truth ++ "|" ++ (← Exec.text v))))
      | _ => Exec.fault }),
  ("global", {
    signature := { parameters := [.machine, .text], results := [.any, .failure] }
    run
      | [.text s] => do
        match (← get).global? s with
        | some v => pure (.ok (.any v))
        | none => pure (.error "globale absente")
      | _ => Exec.fault })]

def refusedSignatures : List (String × Signature) := [
  ("bad-variadic", { parameters := [.other "[]int"], variadic := true }),
  ("bad-param", { parameters := [.number, .other "[]int"] }),
  ("bad-uint", { parameters := [.other "uint8"] }),
  ("bad-vmsecond", { parameters := [.number, .machine] }),
  ("bad-second", { results := [.whole, .whole] }),
  ("bad-many", { results := [.whole, .whole, .failure] }),
  ("bad-result", { results := [.other "[]string"] }),
  ("bad-result2", { results := [.other "uint", .failure] })]

/-- A native that leaves a value on the stack and in a global, and binds itself to a further
name. -/
def notingRoutine : Routine := fun name vs => do
  Exec.push (vs.headD .nul)
  modify (·.setGlobal "dernier" (vs.headD .nul))
  let r ← Exec.defineNative (name ++ name) (-1) 0
  pure (.ok (.object r))

/-- A native that frees the machine that calls it. -/
def freeingRoutine : Routine := fun _ _ => do
  modify Machine.free
  pure (.ok .nul)

/-- Natives that take any number of arguments. -/
def plainSamples : List (String × Routine) := [
  ("count", fun _ vs => pure (.ok (.number (Number.ofInt vs.length)))),
  ("last", fun _ vs =>
    pure (match vs.getLast? with
      | some v => .ok v
      | none => .error "aucun argument")),
  ("join", fun _ vs => do
    let s ← vs.foldlM (fun acc v => do pure (acc ++ (← Exec.text v))) ""
    pure (.ok (.object (← Exec.intern s).ref))),
  ("note", notingRoutine),
  ("free", freeingRoutine)]

def gallery : Library :=
  (typedSamples.map (fun e => (e.1, Offer.function e.2)) ++
    refusedSignatures.map (fun e =>
      (e.1, Offer.function { signature := e.2, run := fun _ => Exec.fault })) ++
    plainSamples.map (fun e => (e.1, Offer.routine e.2)) ++
    [("bad-notfunc", Offer.other "int"), ("bad-nil", Offer.other "<nil>")]).toArray

def sampleLibrary : Library := builtinLibrary ++ gallery

def sampleCode? (name : String) : Option Nat :=
  (gallery.findIdx? (·.1 == name)).map (builtinLibrary.size + ·)

end Parlance.Native
