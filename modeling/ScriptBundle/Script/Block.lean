import ScriptBundle.Script.Spot

/-! The nesting of a script's blocks. A block is a stretch of its own text; where the stretch ends
with an opening brace, the block inside follows, and then the rest, which begins with the brace
that closes it if one does. -/
namespace ScriptBundle

inductive Block
  | plain (own : List Spot)
  | nest (own : List Spot) (inner rest : Block)

namespace Block

def empty : Block := plain []

/-- All spots of the block, those of the blocks in it included. -/
def spots : Block → List Spot
  | plain own => own
  | nest own inner rest => own ++ inner.spots ++ rest.spots

def cons (s : Spot) : Block → Block
  | plain own => plain (s :: own)
  | nest own inner rest => nest (s :: own) inner rest

def prepend (own : List Spot) : Block → Block
  | plain more => plain (own ++ more)
  | nest more inner rest => nest (own ++ more) inner rest

def append : Block → Block → Block
  | plain own, b => prepend own b
  | nest own inner rest, b => nest own inner (append rest b)

@[simp] theorem spots_cons (s : Spot) (b : Block) : (cons s b).spots = s :: b.spots := by
  cases b <;> simp [cons, spots]

@[simp] theorem spots_prepend (own : List Spot) (b : Block) :
    (prepend own b).spots = own ++ b.spots := by
  cases b <;> simp [prepend, spots]

@[simp] theorem spots_append (a b : Block) : (append a b).spots = a.spots ++ b.spots := by
  induction a with
  | plain own => simp [append, spots]
  | nest own inner rest _ ih => simp [append, spots, ih]

/-- The blocks that the spots finish, from the inside out: the first ends before the first closing
brace without a partner, the next begins with that brace and ends before the next such, and so
on. -/
def levels : List Spot → Block × List Block
  | [] => (empty, [])
  | s :: rest =>
    let (inner, outer) := levels rest
    if s.isCode '{' then
      match outer with
      | [] => (nest [s] inner empty, [])
      | next :: more => (nest [s] inner next, more)
    else if s.isCode '}' then (empty, cons s inner :: outer)
    else (cons s inner, outer)

theorem spots_levels (s : List Spot) :
    (levels s).1.spots ++ (levels s).2.flatMap Block.spots = s := by
  induction s with
  | nil => rfl
  | cons c s ih =>
    rcases h : levels s with ⟨inner, outer⟩
    rw [h] at ih
    simp only [levels, h]
    by_cases hopen : c.isCode '{'
    · cases outer with
      | nil => simpa [hopen, Block.spots, empty] using ih
      | cons next more => simpa [hopen, Block.spots] using ih
    · by_cases hclose : c.isCode '}'
      · simpa [hopen, hclose, Block.spots, empty] using ih
      · simpa [hopen, hclose] using ih

/-- The block that ends where a closing brace has no partner, or with the spots. -/
def inside (spots : List Spot) : Block := (levels spots).1

/-- All of the spots as one block; closing braces without a partner are plain characters of it. -/
def whole (spots : List Spot) : Block :=
  (levels spots).2.foldl append (levels spots).1

theorem spots_foldl_append (b : Block) (more : List Block) :
    (more.foldl append b).spots = b.spots ++ more.flatMap Block.spots := by
  induction more generalizing b with
  | nil => simp
  | cons next more ih => simp [ih, List.append_assoc]

@[simp] theorem spots_whole (s : List Spot) : (whole s).spots = s := by
  rw [whole, spots_foldl_append, spots_levels]

end Block
end ScriptBundle
