import PackedBits.Proofs.GuardedViews
import PackedBits.Proofs.Reach
import PackedBits.Source.Compare
import PackedBits.Source.Digest

/-!
# Operations as data

An `Operation` is anything that is asked of a vector or done to it, with its arguments:
a question, a change, an action on the positions of its ones or on its bits as numbers,
the making of a part, and what only a vector in words can do. `Operation.run` carries it
out on a vector in words over a kind of store or on a part of one, to any depth, and
`Operation.guardedRun` carries out the same under guard.
-/

namespace PackedBits

/-! ## Questions -/

namespace Source

/-- A question about a sequence of bits that is read window by window or bit by bit. -/
inductive Question : Type → Type where
  | isEmpty : Question Bool
  | bit? (i : Nat) : Question (Option Bool)
  | toArray : Question (Array Bool)
  | commonPrefix (other : Source) : Question Nat
  | isPrefixOf (other : Source) : Question Bool
  | isProperPrefixOf (other : Source) : Question Bool
  | compare (other : Source) : Question Ordering
  | equal (other : Source) : Question Bool
  | equalOn (other : Source) (lo hi : Nat) : Question Bool
  | digest : Question (BitVec 32)
  | copy (memory : Allocator) : Question (WordVec Flat)
  | copyRange (memory : Allocator) (lo hi : Nat) : Question (WordVec Flat)

namespace Question

variable {α : Type}

def ask : Question α → Source → Answer α
  | isEmpty, s => .ok (Bits.isEmpty s)
  | bit? i, s => Bits.bit? s i
  | toArray, s => Bits.toArray s
  | commonPrefix other, s => s.commonPrefix other
  | isPrefixOf other, s => s.isPrefixOf other
  | isProperPrefixOf other, s => s.isProperPrefixOf other
  | compare other, s => s.compare other
  | equal other, s => s.equal other
  | equalOn other lo hi, s => s.equalOn other lo hi
  | digest, s => s.digest
  | copy memory, s => s.copy memory
  | copyRange memory lo hi, s => s.copyRange memory lo hi

def guardedAsk : Question α → Source → Answer α
  | copy memory, s => s.guardedCopy memory
  | copyRange memory lo hi, s => s.guardedCopyRange memory lo hi
  | q, s => q.ask s

end Question

end Source

/-- A question about the ones of a vector as a set. -/
inductive PositionSet.Question : Type → Type where
  | contains (i : Nat) : Question Bool
  | size : Question Nat
  | first : Question (Option Nat)
  | last : Question (Option Nat)
  | isEmpty : Question Bool
  /-- The positions from `lo` on, taken from the ends named. -/
  | visit (lo : Nat) (ends : List Walk.End) : Question (List (Option Nat))

/-- A question about the bits of a vector as numbers. -/
inductive FieldList.Question : Type → Type where
  | size : Question Nat
  | get? (i : Nat) : Question (Option Word)
  /-- The numbers, taken from the ends named, and how many of them are left. -/
  | visit (ends : List Walk.End) : Question (List (Option Word) × Nat)

/-- A question about a vector. -/
inductive Query : Type → Type 1 where
  | length : Query Nat
  | bit (i : Nat) : Query Bool
  | window (lo hi : Nat) : Query Word
  | window? (lo hi : Nat) : Query (Option Word)
  | countOnes : Query Nat
  | countZeros : Query Nat
  | next (b : Bool) (i : Nat) : Query (Option Nat)
  | previous (b : Bool) (i : Nat) : Query (Option Nat)
  | first (b : Bool) : Query (Option Nat)
  | last (b : Bool) : Query (Option Nat)
  /-- The bits, taken from the ends named, and how many of them are left. -/
  | visit (ends : List Walk.End) : Query (List (Option Bool) × Nat)
  /-- The positions from `lo` up to `hi` that hold `b`, taken from the ends named. -/
  | visitHolding (b : Bool) (lo hi : Nat) (ends : List Walk.End) : Query (List (Option Nat))
  | source {α : Type} (q : Source.Question α) : Query α
  | positions {α : Type} (cuts : List PositionSet.Cut) (q : PositionSet.Question α) : Query α
  | numbers {α : Type} (width : Nat) (q : FieldList.Question α) : Query α

section

variable {V α : Type}

def PositionSet.Question.ask [Bits V] : Question α → PositionSet V → Answer α
  | contains i, s => s.contains i
  | size, s => s.size
  | first, s => s.first
  | last, s => s.last
  | isEmpty, s => s.isEmpty
  | visit lo ends, s => Walk.visitHolding s.backing true ends (s.walkFrom lo)

def PositionSet.Question.guardedAsk [GuardedBits V] : Question α → PositionSet V → Answer α
  | contains i, s => Guarded.contains s i
  | size, s => Guarded.size s
  | first, s => Guarded.first s
  | last, s => Guarded.last s
  | isEmpty, s => Guarded.isEmpty s
  | visit lo ends, s => do
    Walk.visitHolding s.backing true ends (← Guarded.walkFrom s lo)

def FieldList.Question.ask [Bits V] : Question α → FieldList V → Answer α
  | size, l => .ok l.size
  | get? i, l => l.get? i
  | visit ends, l => Walk.visit l.field ends l.size

def FieldList.Question.guardedAsk [GuardedBits V] : Question α → FieldList V → Answer α
  | size, l => Guarded.size l
  | get? i, l => Guarded.get? l i
  | visit ends, l => do Walk.guardedVisit l.field ends (← Guarded.size l)

namespace Query

def run [Bits V] : Query α → V → Answer α
  | length, v => .ok (Bits.length v)
  | bit i, v => Bits.bit v i
  | window lo hi, v => Bits.window v lo hi
  | window? lo hi, v => Bits.window? v lo hi
  | countOnes, v => Bits.countOnes v
  | countZeros, v => Bits.countZeros v
  | next b i, v => Bits.next v b i
  | previous b i, v => Bits.previous v b i
  | first b, v => Bits.first v b
  | last b, v => Bits.last v b
  | visit ends, v => Walk.visit (Bits.bit v) ends (Bits.length v)
  | visitHolding b lo hi ends, v => Walk.visitHolding v b ends (Walk.between v lo hi)
  | source q, v => q.ask (Bits.source v)
  | positions cuts q, v => q.ask (cuts.foldl PositionSet.Cut.apply (PositionSet.of v))
  | numbers width q, v => do q.ask (← FieldList.of v width)

def guardedRun [GuardedBits V] : Query α → V → Answer α
  | length, v => GuardedBits.measure v
  | bit i, v => Bits.bit v i
  | window lo hi, v => Bits.window v lo hi
  | window? lo hi, v => GuardedBits.window? v lo hi
  | countOnes, v => Bits.countOnes v
  | countZeros, v => GuardedBits.countZeros v
  | next b i, v => Bits.next v b i
  | previous b i, v => Bits.previous v b i
  | first b, v => Bits.first v b
  | last b, v => GuardedBits.last v b
  | visit ends, v => do Walk.guardedVisit (Bits.bit v) ends (← GuardedBits.measure v)
  | visitHolding b lo hi ends, v => do
    Walk.visitHolding v b ends (← Walk.guardedBetween v lo hi)
  | source q, v => do q.guardedAsk (← GuardedBits.source v)
  | positions cuts q, v => q.guardedAsk (cuts.foldl PositionSet.Cut.apply (PositionSet.of v))
  | numbers width q, v => do q.guardedAsk (← FieldList.of v width)

end Query

/-! ## Changes -/

/-- A change under guard. -/
def Change.guardedRun [GuardedBits V] (memory : Allocator) : Change → Edit V Reply
  | fill b => (fun _ => .done) <$> GuardedBits.fill b
  | flipAll => (fun _ => .done) <$> GuardedBits.flipAll
  | pop => Reply.lastBit <$> GuardedBits.pop
  | c => c.run memory

/-- An action on the ones of a vector as a set. -/
inductive PositionSet.Action : Type → Type where
  | insert (i : Nat) : Action Bool
  | remove (i : Nat) : Action Bool
  | clear : Action Unit
  | extend (positions : List Nat) : Action Unit

/-- An action on the bits of a vector as numbers. -/
inductive FieldList.Action : Type → Type where
  | set (i : Nat) (value : Word) : Action Word
  | resize (n : Nat) : Action Unit
  | push (value : Word) : Action Unit
  | pop : Action (Option Word)
  | extend (values : List Word) : Action Unit

def PositionSet.Action.run [ResizableBits V] (memory : Allocator) :
    Action α → Edit (PositionSet V) α
  | insert i => PositionSet.insert memory i
  | remove i => PositionSet.remove i
  | clear => PositionSet.clear
  | extend positions => PositionSet.extend memory positions

def PositionSet.Action.guardedRun [GuardedBits V] (memory : Allocator) :
    Action α → Edit (PositionSet V) α
  | insert i => Guarded.insert memory i
  | remove i => Guarded.remove i
  | clear => Guarded.clear
  | extend positions => Guarded.extend memory positions

def FieldList.Action.run [ResizableBits V] (memory : Allocator) :
    Action α → Edit (FieldList V) α
  | set i value => FieldList.set i value
  | resize n => FieldList.resize memory n
  | push value => FieldList.push memory value
  | pop => FieldList.pop memory
  | extend values => FieldList.extend memory values

def FieldList.Action.guardedRun [GuardedBits V] (memory : Allocator) :
    Action α → Edit (FieldList V) α
  | set i value => Guarded.set i value
  | resize n => FieldList.resize memory n
  | push value => Guarded.push memory value
  | pop => Guarded.pop memory
  | extend values => Guarded.extend memory values

end

/-- What a vector in words can do beside what every vector can. -/
inductive WordVec.Action : Type → Type where
  | word (i : Nat) : Action Word
  | words : Action (Array Word)
  | reserve (n : Nat) : Action Unit
  | ensureCapacity (n : Nat) : Action Unit
  | trim : Action Unit
  | extendBits (bits : List Bool) : Action Unit
  | extendPositions (positions : List Nat) : Action Unit

section

variable {S α : Type} [WordStore S]

def WordVec.Action.run (memory : Allocator) : Action α → Edit (WordVec S) α
  | word i => Edit.inspect (WordVec.word · i)
  | words => Edit.inspect WordVec.words
  | reserve n => WordVec.reserve memory n
  | ensureCapacity n => WordVec.ensureCapacity memory n
  | trim => modify WordVec.trim
  | extendBits bits => WordVec.extendBits memory bits
  | extendPositions positions => WordVec.extendPositions memory positions

def WordVec.Action.guardedRun (memory : Allocator) : Action α → Edit (WordVec S) α
  | extendBits bits => Guarded.extendBits memory bits
  | extendPositions positions => Guarded.extendPositions memory positions
  | a => a.run memory

end

/-! ## Vectors and parts to any depth -/

namespace StoreKind

/-- A vector in words over a kind of store, and parts of it, parts of these and so on. -/
def View (kind : StoreKind) : Nat → Type
  | 0 => WordVec kind.Store
  | depth + 1 => Part (kind.View depth)

instance plainView (kind : StoreKind) : (depth : Nat) → ResizableBits (kind.View depth)
  | 0 => inferInstanceAs (ResizableBits (WordVec kind.Store))
  | depth + 1 => @Part.instResizableBits _ (kind.plainView depth)

instance : (kind : StoreKind) → StoreGuard kind.Store
  | flat => inferInstanceAs (StoreGuard Flat)
  | segmented shift => inferInstanceAs (StoreGuard (Segmented shift))
  | other _ => .bare

/-- A vector or a part under guard, over a store under guard. -/
@[reducible] def guardedView (kind : StoreKind) : (depth : Nat) → GuardedBits (kind.View depth)
  | 0 => @WordVec.guardedBits kind.Store .guarded
  | depth + 1 => @Part.guardedBits _ (kind.guardedView depth)

end StoreKind

/-- What can be asked of a vector or done to it. -/
inductive Operation (kind : StoreKind) : Nat → Type → Type 1 where
  | query {depth : Nat} {α : Type} (q : Query α) : Operation kind depth α
  | change {depth : Nat} (c : Change) : Operation kind depth Reply
  | positions {depth : Nat} {α : Type} (cuts : List PositionSet.Cut) (a : PositionSet.Action α) :
    Operation kind depth α
  | numbers {depth : Nat} {α : Type} (width : Nat) (a : FieldList.Action α) :
    Operation kind depth α
  | part {depth : Nat} (lo hi : Nat) : Operation kind depth (Part (kind.View depth))
  | narrow {depth : Nat} (lo hi : Nat) : Operation kind (depth + 1) (Part (kind.View depth))
  | words {α : Type} (a : WordVec.Action α) : Operation kind 0 α

namespace Operation

variable {kind : StoreKind} {depth : Nat} {α : Type}

def run (memory : Allocator) : Operation kind depth α → Edit (kind.View depth) α
  | query q => Edit.inspect q.run
  | change c => c.run memory
  | positions cuts a => PositionSet.inside cuts (a.run memory)
  | numbers width a => FieldList.within width (a.run memory)
  | part lo hi => Edit.inspect (Part.of · lo hi)
  | narrow lo hi => Edit.inspect fun p : Part _ => p.narrow lo hi
  | words a => (a.run memory : Edit (WordVec kind.Store) α)

def guardedRun (memory : Allocator) (op : Operation kind depth α) : Edit (kind.View depth) α :=
  have := kind.guardedView depth
  match op with
  | query q => Edit.inspect q.guardedRun
  | change c => c.guardedRun memory
  | positions cuts a => PositionSet.inside cuts (a.guardedRun memory)
  | numbers width a => FieldList.within width (a.guardedRun memory)
  | part lo hi => Edit.inspect (Part.Guarded.of · lo hi)
  | narrow lo hi => Edit.inspect fun p : Part _ => Part.Guarded.narrow p lo hi
  | words a => (@WordVec.Action.guardedRun kind.Store _ .guarded memory a)

end Operation

end PackedBits
