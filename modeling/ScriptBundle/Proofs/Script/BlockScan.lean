import ScriptBundle.Proofs.Script.Landmarks
import ScriptBundle.Proofs.Script.Replacing

/-! Scanning blocks by byte offsets. The scan of a block goes from one landmark to the next: a brace
that is code, or the keyword of a declaration. At an opening brace the block inside is scanned with
the bindings at hand, and the scan goes on behind it; it ends at the closing brace, or at the end of
the text. The stretches in between are kept as pairs of offsets and have their names replaced at the
end, when all bindings of the block are known. What is scanned is the block that the spots from
there on make up. -/
namespace ScriptBundle

section

variable (code : Text) (marks : List Bool)

def keywordAmong? (start : Nat) : List Keyword → Option (Option Keyword)
  | [] => some none
  | k :: more => do
    let rest ← code.from? start
    if k.text <+: rest then
      let behind ← code.from? (start + Text.width k.text)
      if behind.head?.any isBlank then return some k else keywordAmong? start more
    else keywordAmong? start more

def keywordAt? (start : Nat) : Option (Option Keyword) := do
  let before ← code.upTo? start
  if Declaration.standsAlone before.reverse then keywordAmong? code start Keyword.all
  else return none

def landmarkAt? (offset : Nat) (c : Char) : Option (Option Landmark) :=
  if !isCodeAt marks offset then some none
  else if c = '{' then some (some .opening)
  else if c = '}' then some (some .closing)
  else if c = 'v' ∨ c = 'l' ∨ c = 'c' then (keywordAt? code offset).map (·.map .declaration)
  else some none

def landmarkIn? (offset : Nat) : Text → Option (Option (Nat × Landmark))
  | [] => some none
  | c :: rest => do
    match ← landmarkAt? code marks offset c with
    | some mark => return some (offset, mark)
    | none => landmarkIn? (offset + c.utf8Size) rest

def nextLandmark? (start : Nat) : Option (Option (Nat × Landmark)) := do
  let rest ← code.from? start
  landmarkIn? code marks start rest

def declaredName? (start : Nat) : Option (Option Text) := do
  let rest ← code.from? start
  let head ← rest.upTo? (Text.width (rest.takeWhile (!Declaration.endsHead ·)))
  return Declaration.name? head

/-- Text of a block: a stretch of its own, or a block inside that is done. -/
inductive BlockPart
  | own (start stop : Nat)
  | inner (text : Text)

def renderParts? (bindings : List Binding) : List BlockPart → Option Text
  | [] => some []
  | .own start stop :: more => do
    let text ← renameWithin? code marks bindings start stop
    let rest ← renderParts? bindings more
    return text ++ rest
  | .inner text :: more => do
    let rest ← renderParts? bindings more
    return text ++ rest

/-- A block being scanned: where it and the stretch at hand began, how far it is scanned, and what
was found. -/
structure BlockScan where
  start : Nat
  depth : Nat
  bindings : List Binding
  parts : List BlockPart
  segment : Nat
  cursor : Nat
  events : List Event

namespace BlockScan

def begin (start depth : Nat) (bindings : List Binding) : BlockScan :=
  ⟨start, depth, bindings, [], start, start, []⟩

def finish? (s : BlockScan) (stop : Nat) : Option Namespaced :=
  if s.start ≤ stop then do
    let text ← renderParts? code marks s.bindings (s.parts ++ [.own s.segment stop])
    return ⟨text, stop - s.start, s.events⟩
  else none

/-- The scan behind an inner block; the brace that closes that is of the block around it. -/
def behind (s : BlockScan) (opened : Nat) (inner : Namespaced) (width : Nat) : BlockScan :=
  let segment := opened + inner.consumed
  { s with
    parts := s.parts ++ [.own s.segment opened, .inner inner.code]
    segment
    cursor := min (segment + 1) width
    events := s.events ++ inner.events }

/-- The scan to the end of the block, over at most so many landmarks. -/
def run? (id : ModuleId) : Nat → BlockScan → Option Namespaced
  | 0, _ => none
  | fuel + 1, s => do
    match ← nextLandmark? code marks s.cursor with
    | none => s.finish? code marks (Text.width code)
    | some (offset, .closing) =>
      if 0 < s.depth then s.finish? code marks offset
      else
        run? id fuel
          { s with cursor := offset + 1, events := s.events ++ [.strayBrace offset id] }
    | some (offset, .opening) =>
      let inner ← run? id fuel (begin (offset + 1) (s.depth + 1) s.bindings)
      run? id fuel (s.behind (offset + 1) inner (Text.width code))
    | some (offset, .declaration k) =>
      match ← declaredName? code (offset + Text.width k.text) with
      | none => run? id fuel { s with cursor := offset + Text.width k.text }
      | some name =>
        run? id fuel
          { s with
            bindings := s.bindings ++ [⟨name, id.qualify name, offset⟩]
            cursor := offset + Text.width k.text
            events := s.events ++ [.declared ⟨k, name, offset⟩ s.depth] }

end BlockScan

end

section

variable {code : Text} {l r : List Spot} {s : Spot}

theorem afterKeyword?_append (k : Keyword) (behind : Text) :
    Declaration.afterKeyword? (k.text ++ behind) k =
      if behind.head?.any isBlank then some (k, behind) else none := by
  rw [Declaration.afterKeyword?, Text.after?_eq_some_iff.mpr rfl]
  cases behind <;> rfl

theorem keywordAmong?_eq (x y : Text) (keywords : List Keyword) :
    keywordAmong? (x ++ y) (Text.width x) keywords =
      some ((keywords.findSome? (Declaration.afterKeyword? y)).map (·.1)) := by
  induction keywords with
  | nil => rfl
  | cons k more ih =>
    rw [keywordAmong?, Text.from?_append, List.findSome?_cons, ih]
    by_cases hk : k.text <+: y
    · obtain ⟨behind, rfl⟩ := id hk
      have hbehind : (x ++ (k.text ++ behind)).from? (Text.width x + Text.width k.text) =
          some behind := by
        rw [← List.append_assoc, ← Text.width_append, Text.from?_append]
      simp only [Option.bind_eq_bind, Option.bind_some, hk, if_true, hbehind,
        afterKeyword?_append]
      split <;> rfl
    · have hnone : Declaration.afterKeyword? y k = none := by
        rw [Option.eq_none_iff_forall_not_mem]
        rintro ⟨k', behind⟩ hafter
        obtain ⟨-, rfl, -⟩ := Declaration.afterKeyword?_eq_some_iff.mp hafter
        exact hk (List.prefix_append _ _)
      simp [hk, hnone]

theorem landmarkAt?_eq (h : spots code = l ++ s :: r) :
    landmarkAt? code (byteMarks code) s.offset s.char = some s.landmark? := by
  rw [landmarkAt?, isCodeAt_offset h]
  cases hcode : s.code with
  | false => simp [Spot.landmark?, Spot.isCode, Spot.keyword?, hcode]
  | true =>
    have hkeyword : keywordAt? code s.offset = some s.keyword? := by
      obtain ⟨hbefore, hafter⟩ := spots_around h
      have hfound := keywordAmong?_eq (Spot.text l) (Spot.text (s :: r)) Keyword.all
      rw [← eq_text_append h] at hfound
      rw [keywordAt?, spots_offset_eq h, upTo?_spots h, Spot.keyword?, hcode, hbefore, hafter,
        Option.bind_eq_bind, Option.bind_some, Bool.true_and, hfound]
      split <;> rfl
    have hother : ¬ (s.char = 'v' ∨ s.char = 'l' ∨ s.char = 'c') → s.keyword? = none := by
      intro hchar
      rw [Option.eq_none_iff_forall_not_mem]
      intro k hk
      obtain ⟨behind, htext, -⟩ := Spot.of_keyword? hk
      cases k <;> simp [(List.cons.inj htext).1] at hchar
    simp only [Bool.not_true, Bool.false_eq_true, if_false, hkeyword, Spot.landmark?, Spot.isCode,
      hcode, Bool.true_and, beq_iff_eq]
    split
    · rfl
    · split
      · rfl
      · split
        · rfl
        · next hchar => rw [hother hchar]; rfl

theorem landmarkIn?_eq (h : spots code = l ++ r) :
    landmarkIn? code (byteMarks code) (Text.width (Spot.text l)) (Spot.text r) =
      some (r.findSome? fun s => s.landmark?.map (s.offset, ·)) := by
  induction r generalizing l with
  | nil => rfl
  | cons s r ih =>
    have hat := landmarkAt?_eq h
    have hnext := ih (l := l ++ [s]) (by simpa using h)
    rw [Spot.width_append] at hnext
    rw [spots_offset_eq h] at hat
    rw [show Spot.text (s :: r) = s.char :: Spot.text r from rfl, landmarkIn?, hat,
      List.findSome?_cons, spots_offset_eq h]
    cases s.landmark? with
    | none => exact hnext
    | some mark => rfl

theorem nextLandmark?_eq (h : spots code = l ++ r) :
    nextLandmark? code (byteMarks code) (Text.width (Spot.text l)) =
      some (r.findSome? fun s => s.landmark?.map (s.offset, ·)) := by
  rw [nextLandmark?, from?_spots h]
  exact landmarkIn?_eq h

theorem declaredName?_eq (x y : Text) :
    declaredName? (x ++ y) (Text.width x) = some (Declaration.name? y) := by
  have hhead := Text.upTo?_append (y.takeWhile (!Declaration.endsHead ·))
    (y.dropWhile (!Declaration.endsHead ·))
  rw [List.takeWhile_append_dropWhile] at hhead
  rw [declaredName?, Text.from?_append, Option.bind_eq_bind, Option.bind_some, hhead]
  simp only [Option.bind_some, Declaration.name?, List.takeWhile_idem]
  rfl

theorem renderParts?_append {marks : List Bool} {bindings : List Binding} {x y : List BlockPart}
    {front back : Text} (hx : renderParts? code marks bindings x = some front)
    (hy : renderParts? code marks bindings y = some back) :
    renderParts? code marks bindings (x ++ y) = some (front ++ back) := by
  induction x generalizing front with
  | nil =>
    obtain rfl : [] = front := Option.some.inj hx
    exact hy
  | cons part x ih =>
    cases part with
    | own start stop =>
      obtain ⟨text, htext, hx⟩ := Option.bind_eq_some_iff.mp hx
      obtain ⟨more, hmore, heq⟩ := Option.bind_eq_some_iff.mp hx
      obtain rfl : text ++ more = front := Option.some.inj heq
      simp [renderParts?, htext, ih hmore]
    | inner text =>
      obtain ⟨more, hmore, heq⟩ := Option.bind_eq_some_iff.mp hx
      obtain rfl : text ++ more = front := Option.some.inj heq
      simp [renderParts?, ih hmore]

end

namespace BlockScan

variable {code : Text} {id : ModuleId} {s : BlockScan} {l seg q r : List Spot}
  {outer : List Binding} {front : Text}

/-- The stretch at hand are the spots `seg`, with `l` before them; all of it is scanned, and `r` is
what follows. Before it the names in `outer` were bound, and `front` comes of the parts when all
bindings of the block are known. -/
structure Reads (code : Text) (id : ModuleId) (l seg r : List Spot) (outer : List Binding)
    (front : Text) (s : BlockScan) : Prop where
  spots_eq : spots code = l ++ seg ++ r
  start_le : s.start ≤ Text.width (Spot.text l)
  segment_eq : s.segment = Text.width (Spot.text l)
  cursor_eq : s.cursor = Text.width (Spot.text (l ++ seg))
  bindings_eq : s.bindings = outer ++ Spot.bindings id seg
  parts_eq : renderParts? code (byteMarks code)
    (s.bindings ++ (Block.ofDepth s.depth r).bindings id) s.parts = some front

/-- The block when `b` is what remains of it. -/
def ending (id : ModuleId) (l seg : List Spot) (outer : List Binding) (front : Text) (b : Block)
    (s : BlockScan) : Namespaced :=
  ⟨front ++ (b.prepend seg).renamed id (s.bindings ++ b.bindings id) outer,
    Text.width (Spot.text (l ++ seg ++ b.spots)) - s.start,
    s.events ++ b.events id s.depth false⟩

theorem ending_begin (l : List Spot) (depth : Nat) (outer : List Binding) (b : Block) :
    (begin (Text.width (Spot.text l)) depth outer).ending id l [] outer [] b =
      ⟨b.namespaced id outer, Text.width (Spot.text b.spots), b.events id depth false⟩ := by
  simp only [ending, begin, Block.prepend_nil, Block.namespaced, List.append_nil, List.nil_append,
    Spot.width_append, Nat.add_sub_cancel_left]

theorem reads_begin (h : spots code = l ++ r) (depth : Nat) (outer : List Binding) :
    Reads code id l [] r outer [] (begin (Text.width (Spot.text l)) depth outer) where
  spots_eq := by rw [h, List.append_nil]
  start_le := Nat.le_refl _
  segment_eq := rfl
  cursor_eq := by rw [List.append_nil]; rfl
  bindings_eq := (List.append_nil outer).symm
  parts_eq := rfl

theorem Reads.own_eq (hs : Reads code id l seg (q ++ r) outer front s) (bindings : List Binding) :
    renameWithin? code (byteMarks code) bindings s.segment
      (Text.width (Spot.text (l ++ (seg ++ q)))) = some (rename bindings (seg ++ q)) := by
  rw [hs.segment_eq]
  exact renameWithin?_spots (r := r) (by rw [hs.spots_eq]; simp) bindings

theorem finish?_eq (hs : Reads code id l seg (q ++ r) outer front s) (hq : Spot.Quiet q)
    (hblock : Block.ofDepth s.depth (q ++ r) = .plain q) :
    s.finish? code (byteMarks code) (Text.width (Spot.text (l ++ (seg ++ q)))) =
      some (s.ending id l seg outer front (Block.ofDepth s.depth (q ++ r))) := by
  have hbindings : (Block.plain q).bindings id = [] := hq.bindings id
  have hevents : (Block.plain q).events id s.depth false = [] := hq.events id s.depth
  have hparts := hs.parts_eq
  rw [hblock, hbindings, List.append_nil] at hparts
  have hown : renderParts? code (byteMarks code) s.bindings
      [.own s.segment (Text.width (Spot.text (l ++ (seg ++ q))))] =
        some (rename s.bindings (seg ++ q)) := by
    simp only [renderParts?, hs.own_eq, Option.bind_eq_bind, Option.bind_some, List.append_nil]
    rfl
  have hle : s.start ≤ Text.width (Spot.text (l ++ (seg ++ q))) := by
    have := hs.start_le
    rw [Spot.width_append]
    omega
  rw [finish?, if_pos hle, renderParts?_append hparts hown, hblock, ending, hbindings, hevents,
    List.append_nil, List.append_nil, List.append_assoc]
  rfl

def past (id : ModuleId) (stop : Nat) (q : List Spot) (s : BlockScan) : BlockScan :=
  { s with
    bindings := s.bindings ++ Spot.bindings id q
    cursor := stop
    events := s.events ++ q.filterMap (Block.event? id s.depth) }

theorem Reads.past (hs : Reads code id l seg (q ++ r) outer front s)
    (hblock : Block.ofDepth s.depth (q ++ r) = (Block.ofDepth s.depth r).prepend q) :
    Reads code id l (seg ++ q) r outer front
      (s.past id (Text.width (Spot.text (l ++ (seg ++ q)))) q) where
  spots_eq := by rw [hs.spots_eq]; simp
  start_le := hs.start_le
  segment_eq := hs.segment_eq
  cursor_eq := rfl
  bindings_eq := by
    simp only [BlockScan.past, hs.bindings_eq, Spot.bindings_append, List.append_assoc]
  parts_eq := by
    have hparts := hs.parts_eq
    rw [hblock, Block.bindings_prepend, ← List.append_assoc] at hparts
    exact hparts

theorem ending_past (stop : Nat) (b : Block) :
    (s.past id stop q).ending id l (seg ++ q) outer front b =
      s.ending id l seg outer front (b.prepend q) := by
  simp only [ending, past, Block.prepend_prepend, Block.bindings_prepend, Block.events_prepend,
    Block.spots_prepend, List.append_assoc]

section

variable {e : Spot} {tail more : List Spot} {mark : Landmark}

theorem past_closing (stop : Nat) (hq : Spot.Quiet q) (he : e.isCode '}' = true) :
    s.past id stop (q ++ [e]) =
      { s with cursor := stop, events := s.events ++ [.strayBrace e.offset id] } := by
  have hevent : Block.event? id s.depth e = some (.strayBrace e.offset id) := by
    rw [Block.event?, if_pos he]
  simp only [past, Spot.bindings_append, hq.bindings,
    Spot.bindings_brace id (Spot.isBrace_of_isCode he rfl), List.filterMap_append, hq.events,
    List.filterMap_cons, hevent, List.filterMap_nil, List.nil_append, List.append_nil]

theorem past_declaration (stop : Nat) (hq : Spot.Quiet q) (he : e.isCode '}' = false)
    (htail : Spot.Quiet tail) :
    s.past id stop (q ++ e :: tail) =
      match e.declaration? with
      | none => { s with cursor := stop }
      | some d =>
        { s with
          bindings := s.bindings ++ [d.binding id]
          cursor := stop
          events := s.events ++ [.declared d s.depth] } := by
  have hevent : Block.event? id s.depth e = e.declaration?.map (.declared · s.depth) := by
    rw [Block.event?, he]
    rfl
  have hbindings : Spot.bindings id [e] = (e.declaration?.map (Declaration.binding id)).toList := by
    rw [Spot.bindings, List.filterMap_cons]
    cases e.declaration? <;> rfl
  simp only [past, Spot.bindings_append, Spot.bindings_cons id e tail, hq.bindings, htail.bindings,
    hbindings, List.filterMap_append, List.filterMap_cons, hevent, hq.events, htail.events,
    List.nil_append, List.append_nil]
  cases e.declaration? <;> simp

theorem findSome?_quiet (hq : Spot.Quiet q) :
    q.findSome? (fun s => s.landmark?.map (s.offset, ·)) = none :=
  List.findSome?_eq_none_iff.mpr fun s hs => by rw [hq s hs]; rfl

theorem Reads.next (hs : Reads code id l seg (q ++ e :: more) outer front s) (hq : Spot.Quiet q)
    (he : e.landmark? = some mark) :
    nextLandmark? code (byteMarks code) s.cursor = some (some (e.offset, mark)) := by
  rw [hs.cursor_eq, nextLandmark?_eq hs.spots_eq, List.findSome?_append, findSome?_quiet hq,
    List.findSome?_cons, he]
  rfl

theorem Reads.offset_eq (hs : Reads code id l seg (q ++ e :: more) outer front s) :
    e.offset = Text.width (Spot.text (l ++ (seg ++ q))) :=
  spots_offset_eq (r := more) (by rw [hs.spots_eq]; simp)

theorem Reads.offset_succ {brace : Char}
    (hs : Reads code id l seg (q ++ e :: more) outer front s) (he : e.isCode brace = true)
    (hbrace : brace.utf8Size = 1) :
    e.offset + 1 = Text.width (Spot.text (l ++ (seg ++ (q ++ [e])))) := by
  have hsize := (Spot.utf8Size_of_isCode he).trans hbrace
  simp only [hs.offset_eq, Spot.width_append, Spot.width_cons, hsize, Nat.add_assoc]
  rfl

/-- With so much fuel the scan finds the block, over any part of it that is still to be scanned. -/
def Scans (code : Text) (id : ModuleId) (fuel : Nat) : Prop :=
  ∀ (s : BlockScan) (l seg r : List Spot) (outer : List Binding) (front : Text),
    Reads code id l seg r outer front s → r.length < fuel →
    s.run? code (byteMarks code) id fuel =
      some (s.ending id l seg outer front (Block.ofDepth s.depth r))

variable {fuel : Nat}

theorem Scans.past (ih : Scans code id fuel) (hs : Reads code id l seg (q ++ r) outer front s)
    (hblock : Block.ofDepth s.depth (q ++ r) = (Block.ofDepth s.depth r).prepend q)
    (hlength : r.length < fuel) :
    (s.past id (Text.width (Spot.text (l ++ (seg ++ q)))) q).run? code (byteMarks code) id fuel =
      some (s.ending id l seg outer front (Block.ofDepth s.depth (q ++ r))) := by
  rw [hblock, ← ending_past]
  exact ih _ _ _ _ _ _ (hs.past hblock) hlength

theorem run?_quiet (hs : Reads code id l seg r outer front s) (hr : Spot.Quiet r) :
    s.run? code (byteMarks code) id (fuel + 1) =
      some (s.ending id l seg outer front (Block.ofDepth s.depth r)) := by
  have hnext := nextLandmark?_eq hs.spots_eq
  rw [← hs.cursor_eq, findSome?_quiet hr] at hnext
  have hwidth : Text.width code = Text.width (Spot.text (l ++ (seg ++ r))) := by
    rw [← List.append_assoc, ← hs.spots_eq, text_spots]
  have hblock := Block.ofDepth_append s.depth [] hr.not_brace
  rw [Block.ofDepth_nil, Block.prepend_empty] at hblock
  rw [run?, hnext, hwidth]
  rw [← List.append_nil r] at hs
  simpa using finish?_eq hs hr hblock

theorem Scans.closing (ih : Scans code id fuel)
    (hs : Reads code id l seg (q ++ e :: more) outer front s) (hlength : more.length < fuel)
    (hq : Spot.Quiet q) (he : e.landmark? = some .closing) :
    s.run? code (byteMarks code) id (fuel + 1) =
      some (s.ending id l seg outer front (Block.ofDepth s.depth (q ++ e :: more))) := by
  have hbrace := Spot.of_landmark?_closing he
  have hblock := Block.ofDepth_append s.depth (e :: more) hq.not_brace
  rw [run?, hs.next hq he]
  simp only [Option.bind_eq_bind, Option.bind_some]
  by_cases hdepth : 0 < s.depth
  · rw [Block.ofDepth_close more hdepth hbrace, Block.prepend_empty] at hblock
    rw [if_pos hdepth, hs.offset_eq]
    exact finish?_eq hs hq hblock
  · have hzero : s.depth = 0 := by omega
    rw [hzero, Block.ofDepth_zero_close more hbrace, Block.prepend_prepend, ← hzero] at hblock
    have hcons : q ++ e :: more = q ++ [e] ++ more := by simp
    rw [if_neg hdepth, hs.offset_succ hbrace rfl, ← past_closing _ hq hbrace]
    rw [hcons] at hs hblock ⊢
    exact ih.past hs hblock hlength

theorem Scans.declaration {k : Keyword} (ih : Scans code id fuel)
    (hs : Reads code id l seg (q ++ e :: more) outer front s) (hlength : more.length < fuel)
    (hq : Spot.Quiet q) (he : e.landmark? = some (.declaration k)) :
    s.run? code (byteMarks code) id (fuel + 1) =
      some (s.ending id l seg outer front (Block.ofDepth s.depth (q ++ e :: more))) := by
  obtain ⟨hopen, hclose, -⟩ := Spot.of_landmark?_declaration he
  obtain ⟨tail, rest, rfl, htext, htail, hdeclares⟩ := exists_of_landmark?_declaration
    (l := l ++ seg ++ q) (r := more) (by rw [hs.spots_eq]; simp) he
  have hstop : e.offset + Text.width k.text =
      Text.width (Spot.text (l ++ (seg ++ (q ++ e :: tail)))) := by
    simp only [hs.offset_eq, Spot.width_append, htext, Nat.add_assoc]
  have hcut : spots code = l ++ (seg ++ (q ++ e :: tail)) ++ rest := by rw [hs.spots_eq]; simp
  have hname := declaredName?_eq (Spot.text (l ++ (seg ++ (q ++ e :: tail)))) (Spot.text rest)
  rw [← eq_text_append hcut] at hname
  have hblock : Block.ofDepth s.depth (q ++ e :: tail ++ rest) =
      (Block.ofDepth s.depth rest).prepend (q ++ e :: tail) := by
    rw [List.append_assoc, List.cons_append, Block.ofDepth_append s.depth _ hq.not_brace,
      Block.ofDepth_cons s.depth _ hopen hclose, Block.ofDepth_append s.depth _ htail.not_brace,
      Block.prepend_prepend, Block.prepend_prepend]
    simp
  have hlength' : rest.length < fuel := by
    rw [List.length_append] at hlength
    omega
  have hnext := hs.next hq he
  rw [show q ++ e :: (tail ++ rest) = q ++ e :: tail ++ rest by simp] at hs ⊢
  rw [← ih.past hs hblock hlength', past_declaration _ hq hclose htail, run?, hnext, hdeclares,
    ← hstop]
  simp only [Option.bind_eq_bind, Option.bind_some, hstop, hname]
  cases Declaration.name? (Spot.text rest) <;> rfl

variable {inner rest : Block} {lead : List Spot}

def innerOf (id : ModuleId) (inner : Block) (s : BlockScan) : Namespaced :=
  ⟨inner.namespaced id s.bindings, Text.width (Spot.text inner.spots),
    inner.events id (s.depth + 1) false⟩

/-- What stands at the beginning of a stretch: the brace that closes the block inside, if it is
closed. -/
def LeadsBehind (lead r : List Spot) : Prop :=
  lead = [] ∧ r = [] ∨ ∃ brace, brace.isCode '}' = true ∧ lead = [brace]

theorem LeadsBehind.bindings (h : LeadsBehind lead r) (id : ModuleId) :
    Spot.bindings id lead = [] := by
  rcases h with ⟨rfl, -⟩ | ⟨brace, hbrace, rfl⟩
  · rfl
  · exact Spot.bindings_brace id (Spot.isBrace_of_isCode hbrace rfl)

theorem LeadsBehind.events (h : LeadsBehind lead r) (id : ModuleId) (depth n : Nat) :
    ((Block.ofDepth depth r).prepend lead).events id n true =
      (Block.ofDepth depth r).events id n false := by
  rcases h with ⟨rfl, rfl⟩ | ⟨brace, hbrace, rfl⟩
  · rw [Block.ofDepth_nil]
    rfl
  · exact Block.events_prepend_closing id n brace _

theorem LeadsBehind.cursor_eq (h : LeadsBehind lead r) (hcode : spots code = l ++ (lead ++ r)) :
    min (Text.width (Spot.text l) + 1) (Text.width code) = Text.width (Spot.text (l ++ lead)) := by
  have hwidth := congrArg Text.width (eq_text_append hcode)
  rw [Text.width_append] at hwidth
  rcases h with ⟨rfl, rfl⟩ | ⟨brace, hbrace, rfl⟩
  · rw [List.append_nil, hwidth]
    exact Nat.min_eq_right (Nat.le_succ _)
  · have hsize : brace.char.utf8Size = 1 := Spot.utf8Size_of_isCode hbrace
    rw [List.cons_append, Spot.width_cons, hsize] at hwidth
    rw [Spot.width_append, Spot.width_cons, hsize]
    exact Nat.min_eq_left (by omega)

theorem Reads.bindings_open (hs : Reads code id l seg r outer front s) (hq : Spot.Quiet q)
    (he : e.isCode '{' = true) : outer ++ Spot.bindings id (seg ++ (q ++ [e])) = s.bindings := by
  rw [Spot.bindings_append, Spot.bindings_append, hq.bindings,
    Spot.bindings_brace id (Spot.isBrace_of_isCode he rfl), List.append_nil, List.append_nil,
    hs.bindings_eq]

theorem bindings_opened (id : ModuleId) (inner rest : Block) (hq : Spot.Quiet q)
    (he : e.isCode '{' = true) (hlead : LeadsBehind lead r) :
    ((Block.nest [e] inner (rest.prepend lead)).prepend q).bindings id = rest.bindings id := by
  rw [Block.bindings_prepend, hq.bindings, Block.bindings, Block.bindings_prepend, hlead.bindings,
    Spot.bindings_brace id (Spot.isBrace_of_isCode he rfl)]
  rfl

section

variable (hs : Reads code id l seg (q ++ e :: more) outer front s) (hq : Spot.Quiet q)
  (he : e.isCode '{' = true) (hlead : LeadsBehind lead r)
  (hblock : Block.ofDepth s.depth (q ++ e :: more) =
    (Block.nest [e] inner ((Block.ofDepth s.depth r).prepend lead)).prepend q)

include hs hq he hlead hblock

theorem Reads.behind (hmore : more = inner.spots ++ (lead ++ r)) :
    Reads code id (l ++ (seg ++ (q ++ [e])) ++ inner.spots) lead r s.bindings
      (front ++ (rename (s.bindings ++ (Block.ofDepth s.depth r).bindings id) (seg ++ (q ++ [e])) ++
        inner.namespaced id s.bindings))
      (s.behind (Text.width (Spot.text (l ++ (seg ++ (q ++ [e]))))) (s.innerOf id inner)
        (Text.width code)) := by
  have hcode : spots code = l ++ (seg ++ (q ++ [e])) ++ inner.spots ++ (lead ++ r) := by
    rw [hs.spots_eq, hmore]
    simp
  have hsegment : Text.width (Spot.text (l ++ (seg ++ (q ++ [e])))) +
      Text.width (Spot.text inner.spots) =
        Text.width (Spot.text (l ++ (seg ++ (q ++ [e])) ++ inner.spots)) :=
    (Spot.width_append _ _).symm
  have hparts := hs.parts_eq
  rw [hblock, bindings_opened id _ _ hq he hlead] at hparts
  have hcons : q ++ e :: more = q ++ [e] ++ more := by simp
  rw [hcons] at hs
  refine ⟨by rw [hcode]; simp, ?_, hsegment, ?_, ?_, renderParts?_append hparts ?_⟩
  · have := hs.start_le
    simp only [BlockScan.behind, Spot.width_append]
    omega
  · simp only [BlockScan.behind, innerOf, hsegment]
    exact hlead.cursor_eq hcode
  · rw [hlead.bindings, List.append_nil]
    rfl
  · simp only [renderParts?, hs.own_eq, Option.bind_eq_bind, Option.bind_some, List.append_nil]
    rfl

theorem ending_behind (stop : Nat) :
    (s.behind stop (s.innerOf id inner) (Text.width code)).ending id
        (l ++ (seg ++ (q ++ [e])) ++ inner.spots) lead s.bindings
        (front ++
          (rename (s.bindings ++ (Block.ofDepth s.depth r).bindings id) (seg ++ (q ++ [e])) ++
            inner.namespaced id s.bindings)) (Block.ofDepth s.depth r) =
      s.ending id l seg outer front (Block.ofDepth s.depth (q ++ e :: more)) := by
  have hplain : Block.event? id s.depth e = none := by
    have hno : e.isCode '}' = false := by simp [Spot.isCode, (Spot.isCode_iff.mp he).2]
    rw [Block.event?, hno, Spot.declaration?_eq_none (Spot.isBrace_of_isCode he rfl)]
    rfl
  rw [hblock, ending, ending, bindings_opened id _ _ hq he hlead]
  simp only [behind, innerOf, Block.prepend_nest, Block.renamed, Block.spots,
    Block.spots_prepend, Block.events, hs.bindings_open hq he, hlead.events,
    hq.events, hplain, Block.namespaced, List.append_assoc, Bool.toNat_false, List.drop_zero,
    List.filterMap_append, List.filterMap_cons, List.filterMap_nil, List.nil_append]

end

theorem Scans.opening (ih : Scans code id fuel)
    (hs : Reads code id l seg (q ++ e :: more) outer front s) (hlength : more.length < fuel)
    (hq : Spot.Quiet q) (he : e.landmark? = some .opening) :
    s.run? code (byteMarks code) id (fuel + 1) =
      some (s.ending id l seg outer front (Block.ofDepth s.depth (q ++ e :: more))) := by
  have hbrace := Spot.of_landmark?_opening he
  have hcode : spots code = l ++ (seg ++ (q ++ [e])) ++ more := by rw [hs.spots_eq]; simp
  -- First the block inside is scanned, from behind its brace.
  have hinner := ih _ _ _ _ _ _ (reads_begin hcode (s.depth + 1) s.bindings) hlength
  rw [ending_begin, show (begin _ (s.depth + 1) s.bindings).depth = s.depth + 1 from rfl,
    Block.ofDepth, if_neg (Nat.succ_ne_zero _)] at hinner
  -- Then what lies behind it is, which begins with the brace that closes it.
  obtain ⟨lead, rest, hlead, hmore, hopen⟩ := Block.ofDepth_open s.depth more hbrace
  have hblock : Block.ofDepth s.depth (q ++ e :: more) = (Block.nest [e] (Block.inside more)
      ((Block.ofDepth s.depth rest).prepend lead)).prepend q := by
    rw [Block.ofDepth_append s.depth _ hq.not_brace, hopen]
  have hlength' : rest.length < fuel := by
    have := congrArg List.length hmore
    simp only [List.length_append] at this
    omega
  have hbehind := ih _ _ _ _ _ _ (hs.behind hq hbrace hlead hblock hmore) hlength'
  rw [run?, hs.next hq he]
  simp only [Option.bind_eq_bind, Option.bind_some, hs.offset_succ hbrace rfl, hinner]
  rw [← ending_behind hs hq hbrace hlead hblock]
  exact hbehind

end

/-- The scan of a block finds the block. The induction is on the fuel: a block inside and what comes
behind it are both shorter than what was to be scanned. -/
theorem scans (code : Text) (id : ModuleId) (fuel : Nat) : Scans code id fuel := by
  induction fuel with
  | zero =>
    intro s l seg r outer front hs hlength
    omega
  | succ fuel ih =>
    intro s l seg r outer front hs hlength
    rcases Spot.quiet_or_exists r with hr | ⟨q, e, more, mark, rfl, hq, he⟩
    · exact run?_quiet hs hr
    · have hlength' : more.length < fuel := by
        rw [List.length_append, List.length_cons] at hlength
        omega
      cases mark with
      | opening => exact ih.opening hs hlength' hq he
      | closing => exact ih.closing hs hlength' hq he
      | declaration k => exact ih.declaration hs hlength' hq he

end BlockScan

theorem blockScan_run? {code : Text} {l r : List Spot} (h : spots code = l ++ r) (id : ModuleId)
    (outer : List Binding) (depth : Nat) {fuel : Nat} (hfuel : r.length < fuel) :
    (BlockScan.begin (Text.width (Spot.text l)) depth outer).run? code (byteMarks code) id fuel =
      some (namespaceBlock id outer depth r) := by
  rw [BlockScan.scans code id fuel _ _ _ _ _ _ (BlockScan.reads_begin h depth outer) hfuel,
    BlockScan.ending_begin]
  rfl

end ScriptBundle
