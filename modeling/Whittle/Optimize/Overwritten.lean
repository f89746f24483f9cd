import Whittle.Optimize.Forward

/-!
# Overwritten stores

A store whose variable is stored again later in the block, with no read in between, cannot be seen.
It goes, and the later store takes over the word that declares the variable.
-/

namespace Whittle.Ir

/-- A store that nothing has read yet: its index, its own place, its variable and its word. -/
structure PendingStore where
  /-- Where it stands in the block. -/
  index : Nat
  /-- What it defines. -/
  place : Place
  /-- What it writes. -/
  target : Place
  /-- The word that it was written with, or took over. -/
  kind : StoreKind

/-- What is known in the middle of a block. -/
structure Overwriting where
  /-- The latest unread store of each variable. -/
  pending : Table DeclId PendingStore := ∅
  /-- Indices of stores to remove. -/
  removed : KeySet Nat := ∅
  /-- Words that stores take over, by index. -/
  words : Table Nat StoreKind := ∅

namespace Overwriting

/-- Forgets the unread store of a variable. -/
def forget (s : Overwriting) (d : DeclId) : Overwriting := { s with pending := s.pending.erase d }

/-- Takes notice of a store.  An unread store before it is removed and leaves its word. -/
def noteStore (isUnread : Place → Bool) (s : Overwriting) (store : PendingStore) : Overwriting :=
  let d := store.target.declaration
  match s.pending.get? d with
  | some earlier =>
    if isUnread earlier.place && isUnread earlier.target then
      let words := s.words.erase earlier.index
      let takesOver := earlier.kind.isDeclaration && store.kind == .reassign
      let kind := if takesOver then earlier.kind else store.kind
      { pending := s.pending.insert d { store with kind }
        removed := KeySet.add s.removed earlier.index
        words := if takesOver then words.insert store.index earlier.kind else words }
    else { s with pending := s.pending.insert d store }
  | none => { s with pending := s.pending.insert d store }

/-- Takes notice of an instruction. -/
def note (env : Environment) (isUnread : Place → Bool) (s : Overwriting) (index : Nat)
    (i : Instr) : Overwriting :=
  let s := i.reads.foldl (fun s p => s.forget p.declaration) s
  match i.op with
  | .storeLocal target _ kind =>
    if env.isCapturedMutable target.declaration then s
    else s.noteStore isUnread ⟨index, i.place, target, kind⟩
  | .copy target _ => s.forget target.declaration
  | .binding _ | .destructure .. => s.forget i.place.declaration
  | _ => s

end Overwriting

/-- Gives a store another word. -/
def Instr.withWord (i : Instr) (word : Option StoreKind) : Instr :=
  match word, i.op with
  | some kind, .storeLocal target value _ => { i with op := .storeLocal target value kind }
  | _, _ => i

/-- Removes the overwritten stores of a block; tells whether there were any. -/
def dropOverwritten (env : Environment) (isUnread : Place → Bool) (instructions : List Instr) :
    Bool × List Instr :=
  let s := instructions.zipIdx.foldl (fun s (i, index) => Overwriting.note env isUnread s index i) {}
  if s.removed.isEmpty then (false, instructions)
  else
    (true, instructions.zipIdx.filterMap fun (i, index) =>
      if s.removed.contains index then none else some (i.withWord (s.words.get? index)))

/-- One round of removing overwritten stores. -/
def Module.dropOverwritten (m : Module) (env : Environment) : Bool × Module :=
  let counts := m.readCounts
  m.onBlocks (Ir.dropOverwritten env fun p => counts.getD p.cell.id 0 == 0)

end Whittle.Ir
