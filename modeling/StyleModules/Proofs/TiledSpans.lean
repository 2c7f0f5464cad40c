import StyleModules.Proofs.PlacedNodes

/-!
The spans of a sheet that was read tile its text.

* Section 1: a node is printed as its extent, which its span covers, and what trails it: the blanks
  and the `;` of a statement (`Node.print_eq_extent`).
* Section 2: `Block.Tiles` goes through a block from its start to its end. Between the end of a node
  and the start of the next stands what trails the one and the blanks in front of the other, and
  nothing else. Placed nodes tile (`PlacedAll.tiledFrom`), and nodes that tile follow each other
  within their block (`TiledFrom.within`, `TiledFrom.pairwise`).
* Section 3: what holds of every node that the reader makes holds of every node of a sheet that was
  read (`Parser.run_forall`). So no extent is empty.
* Section 4: all of it for every node and every block of a sheet that was read.
-/

namespace StyleModules

/-! ## 1. What trails a node -/

/-- What is printed behind the extent of a node. -/
def Node.trailing (terminate : Bool) : Node → Text
  | .atStatement _ l => l.between ++ terminator terminate
  | .decl _ l => l.after ++ terminator terminate
  | _ => []

theorem Node.print_eq_extent (n : Node) (terminate : Bool) :
    n.print terminate = n.extent ++ n.trailing terminate := by
  cases n with
  | rule s l b ns => simp only [Node.extent, Node.print, Node.trailing, List.append_nil]
  | atBlock h l b ns => simp only [Node.extent, Node.print, Node.trailing, List.append_nil]
  | atStatement h l => simp only [Node.extent, Node.print, Node.trailing, List.append_assoc]
  | decl d l => simp only [Node.extent, Node.print, Node.trailing, List.append_assoc]
  | comment t l => simp only [Node.extent, Node.print, Node.trailing, List.append_nil]

/-! ## 2. Tiled blocks -/

/-- Nodes stand in a text from an offset `reached` on up to the end of their block, `left` being
    what trails the node that ends at `reached`. -/
def TiledFrom (t : Text) (semicolon : Bool) (after : Text) (stop : Nat) :
    Nat → Text → List Node → Prop
  | reached, left, [] => t.slice? reached stop = some (left ++ after)
  | reached, left, n :: ns =>
    ∃ s, n.span = some s ∧ s.start ≤ s.stop ∧
      t.slice? reached s.start = some (left ++ n.before) ∧
      TiledFrom t semicolon after stop s.stop (n.trailing (!ns.isEmpty || semicolon)) ns

/-- The nodes of a block tile the range of a text that the block covers. -/
def Block.Tiles (t : Text) (range : Span) (b : Block) : Prop :=
  TiledFrom t b.semicolon b.after range.stop range.start [] b.nodes

/-- A node ends where another begins, or before. -/
def Node.EndsBefore (m n : Node) : Prop :=
  ∀ s ∈ m.span, ∀ u ∈ n.span, s.stop ≤ u.start

/-- **Placed nodes tile the text they are printed in**, between what trails the node in front of
    them and the blanks at the end of their block. -/
theorem PlacedAll.tiledFrom (u left after post : Text) (semicolon : Bool) (ns : List Node)
    (h : PlacedAll (Text.size (u ++ left)) ns) :
    TiledFrom (u ++ left ++ printAll semicolon ns ++ after ++ post) semicolon after
      (Text.size (u ++ left ++ printAll semicolon ns ++ after)) (Text.size u) left ns := by
  induction ns generalizing u left with
  | nil =>
    have hslice := Text.slice?_append u (left ++ after) post
    rw [← Text.size_append] at hslice
    simpa only [TiledFrom, printAll, List.append_nil, List.append_assoc] using hslice
  | cons n ns ih =>
    obtain ⟨hn, hns⟩ := h
    have hbefore := Text.slice?_append u (left ++ n.before)
      (n.extent ++ n.trailing (!ns.isEmpty || semicolon) ++ printAll semicolon ns ++ after ++ post)
    have hrest : PlacedAll (Text.size (u ++ left ++ n.before ++ n.extent ++
        n.trailing (!ns.isEmpty || semicolon))) ns := by
      cases ns with
      | nil => trivial
      | cons m ns =>
        rw [n.print_eq_extent] at hns
        simpa only [Text.size_append, List.isEmpty_cons, Bool.not_false, Bool.true_or,
          Nat.add_assoc] using hns
    have htiled := ih (u ++ left ++ n.before ++ n.extent) _ hrest
    refine ⟨_, hn.span, Nat.le_add_right _ _, ?_, ?_⟩
    · simpa only [printAll, n.print_eq_extent, Text.size_append, List.append_assoc,
        Nat.add_assoc] using hbefore
    · simpa only [printAll, n.print_eq_extent, Text.size_append, List.append_assoc,
        Nat.add_assoc] using htiled

section Tiled

variable {t after left : Text} {semicolon : Bool} {stop reached : Nat} {ns : List Node}

theorem le_of_slice? {v : Text} {start : Nat} (h : t.slice? start stop = some v) :
    start ≤ stop := by
  obtain ⟨u, w, -, hstart, hstop⟩ := Text.exists_of_slice? h
  omega

theorem TiledFrom.le (h : TiledFrom t semicolon after stop reached left ns) : reached ≤ stop := by
  induction ns generalizing reached left with
  | nil => exact le_of_slice? h
  | cons n ns ih =>
    obtain ⟨s, -, hle, hslice, hrest⟩ := h
    have hstart := le_of_slice? hslice
    have hstop := ih hrest
    omega

/-- Every node of a block stands between its start and its end. -/
theorem TiledFrom.within (h : TiledFrom t semicolon after stop reached left ns) :
    ∀ n ∈ ns, ∃ s, n.span = some s ∧ reached ≤ s.start ∧ s.start ≤ s.stop ∧ s.stop ≤ stop := by
  induction ns generalizing reached left with
  | nil =>
    intro n hn
    cases hn
  | cons m ns ih =>
    obtain ⟨s, hspan, hle, hslice, hrest⟩ := h
    have hstart := le_of_slice? hslice
    intro n hn
    rcases List.mem_cons.mp hn with rfl | hn
    · exact ⟨s, hspan, hstart, hle, hrest.le⟩
    · obtain ⟨s', hspan', hfrom, hle', hto⟩ := ih hrest n hn
      exact ⟨s', hspan', by omega, hle', hto⟩

/-- The nodes of a block follow each other. -/
theorem TiledFrom.pairwise (h : TiledFrom t semicolon after stop reached left ns) :
    ns.Pairwise Node.EndsBefore := by
  induction ns generalizing reached left with
  | nil => exact List.Pairwise.nil
  | cons m ns ih =>
    obtain ⟨s, hspan, -, -, hrest⟩ := h
    refine List.Pairwise.cons ?_ (ih hrest)
    intro n hn s' hs' u hu
    obtain ⟨u', hspan', hfrom, -, -⟩ := hrest.within n hn
    rw [hspan, Option.mem_some_iff] at hs'
    rw [hspan', Option.mem_some_iff] at hu
    rw [← hs', ← hu]
    exact hfrom

end Tiled

/-! ## 3. Every node that is read -/

theorem preorderAll_eq_flatMap (ns : List Node) : preorderAll ns = ns.flatMap Node.preorder := by
  induction ns with
  | nil => rfl
  | cons n ns ih => rw [preorderAll, ih, List.flatMap_cons]

namespace Parser

section Throughout

variable {P : Node → Prop}

/-- Something holds of some nodes and of all nodes in them. -/
def Throughout (P : Node → Prop) (ns : List Node) : Prop :=
  ∀ n ∈ preorderAll ns, P n

theorem throughout_cons {n : Node} {ns : List Node} :
    Throughout P (n :: ns) ↔ (∀ m ∈ n.preorder, P m) ∧ Throughout P ns := by
  unfold Throughout
  rw [preorderAll]
  exact List.forall_mem_append

theorem throughout_reverse {ns : List Node} : Throughout P ns.reverse ↔ Throughout P ns := by
  unfold Throughout
  simp only [preorderAll_eq_flatMap, List.mem_flatMap, List.mem_reverse]

/-- Something holds of every node that the reader makes, whatever it reads. -/
structure Made (P : Node → Prop) : Prop where
  statement : ∀ {words before trailing : Text} {start : Nat} {n : Node},
    statement words before trailing start = .ok n → P n
  comment : ∀ (text : Text) (l : Layout), P (.comment text l)
  close : ∀ (p : Pending) (body : Block) (stop : Nat), P (p.close body stop)

/-- A statement has no nodes in it. -/
theorem preorder_statement {words before trailing : Text} {start : Nat} {n : Node}
    (h : Parser.statement words before trailing start = .ok n) : n.preorder = [n] := by
  unfold Parser.statement at h
  simp only at h
  split at h
  · cases h
    rfl
  · split at h
    · cases h
    · cases h
      rfl

theorem preorder_close (p : Pending) (body : Block) (stop : Nat) :
    (p.close body stop).preorder = p.close body stop :: preorderAll body.nodes := by
  unfold Pending.close
  simp only
  split
  · rfl
  · rfl

/-- Something holds of all nodes that have been read so far. -/
structure State.Throughout (P : Node → Prop) (s : State) : Prop where
  nodes : Parser.Throughout P s.nodes
  pending : ∀ p ∈ s.pending, Parser.Throughout P p.siblings

/-- What holds of the nodes that are made still holds of all after a step. -/
theorem step_throughout (hmade : Made P) {s s' : State} {input rest : Text} (hs : s.Throughout P)
    (h : step s input = .next s' rest) : s'.Throughout P := by
  rcases step_cases h with ⟨t, -, h⟩ | ⟨t, -, h⟩ | h
  · unfold stepClose at h
    split at h
    · cases h
    · next p outer hp =>
      simp only [Step.next.injEq] at h
      obtain ⟨rfl, -⟩ := h
      have hpending := hs.pending
      rw [hp, List.forall_mem_cons] at hpending
      refine ⟨throughout_cons.mpr ⟨?_, hpending.1⟩, hpending.2⟩
      rw [preorder_close, List.forall_mem_cons]
      exact ⟨hmade.close _ _ _, throughout_reverse.mpr hs.nodes⟩
  · unfold stepComment at h
    split at h
    · cases h
    · simp only [Step.next.injEq] at h
      obtain ⟨rfl, -⟩ := h
      refine ⟨throughout_cons.mpr ⟨?_, hs.nodes⟩, hs.pending⟩
      intro m hm
      rw [List.mem_singleton.mp hm]
      exact hmade.comment _ _
  · have hstatement : ∀ {words before trailing : Text} {start : Nat} {n : Node},
        Parser.statement words before trailing start = .ok n →
          Parser.Throughout P (n :: s.nodes) := by
      intro words before trailing start n hn
      refine throughout_cons.mpr ⟨?_, hs.nodes⟩
      rw [preorder_statement hn]
      intro m hm
      rw [List.mem_singleton.mp hm]
      exact hmade.statement hn
    obtain ⟨words, trailing, hcase⟩ := stepWords_cases h
    rcases hcase with ⟨t, -, -, rfl⟩ | ⟨t, n, -, -, hn, rfl⟩ | ⟨t, n, -, -, hn, rfl⟩
    · exact ⟨fun m hm => (by cases hm), List.forall_mem_cons.mpr ⟨hs.nodes, hs.pending⟩⟩
    · exact ⟨hstatement hn, hs.pending⟩
    · exact ⟨hstatement hn, hs.pending⟩

/-- **What holds of the nodes that are made holds of all nodes that a run returns.** -/
theorem run_forall (hmade : Made P) {s : State} {input : Text} {b : Block} (hs : s.Throughout P)
    (h : run s input = .ok b) : Parser.Throughout P b.nodes := by
  fun_induction run s input with
  | case1 s input e he => cases h
  | case2 s input block hd =>
    cases h
    rw [(of_step_done hd).2.2]
    exact throughout_reverse.mpr hs.nodes
  | case3 s input s' rest hn _ ih => exact ih (step_throughout hmade hs hn) h

end Throughout

/-- The extent of a node that is made is not empty. -/
theorem made_extent : Made fun n => n.extent ≠ [] where
  statement := by
    intro words before trailing start n h
    have hwords := statement_words h
    unfold Parser.statement at h
    simp only at h
    split at h
    · cases h
      simp [Node.extent, AtHead.print]
    · split at h
      · cases h
      · next d between hd =>
        cases h
        rw [Node.extent, Decl.print_of_ofText hd]
        exact hwords
  comment := fun text l => by simp [Node.extent, Node.print]
  close := fun p body stop => by
    have hprint := (p.print_close body stop true).2.2
    have hextent : (p.close body stop).extent = (p.close body stop).print true := by
      unfold Pending.close
      simp only
      split
      · rfl
      · rfl
    rw [hextent, hprint]
    simp

end Parser

/-! ## 4. The whole sheet -/

/-- The block of a node that has one. -/
def Node.body? : Node → Option Block
  | .rule _ l b ns => some ⟨ns, l.after, b⟩
  | .atBlock _ l b ns => some ⟨ns, l.after, b⟩
  | _ => none

/-- The block of a node and the range between its brackets. -/
def Node.block? (n : Node) : Option (Span × Block) := do
  let span ← n.span
  let body ← n.body?
  return (⟨span.start + Text.size n.opening, span.stop - 1⟩, body)

/-- All blocks of a sheet, each with the range that it covers in the text. -/
def Stylesheet.blocks (sheet : Stylesheet) : List (Span × Block) :=
  (⟨0, Text.size sheet.input⟩, ⟨sheet.nodes, sheet.after, sheet.semicolon⟩) ::
    sheet.preorder.filterMap Node.block?

/-- An offset between two characters of a text, or at one of its ends. -/
def Text.IsBoundary (t : Text) (offset : Nat) : Prop :=
  ∃ u v, t = u ++ v ∧ Text.size u = offset

/-- A node with a block is its opening, its block and the closing bracket. -/
theorem Node.Placed.body {n : Node} {b : Block} (hb : n.body? = some b) {start : Nat}
    (h : n.Placed start) :
    n.children = b.nodes ∧ PlacedAll (start + Text.size n.opening) b.nodes ∧
      0 < Text.size n.opening ∧
      n.extent = n.opening ++ printAll b.semicolon b.nodes ++ b.after ++ ['\x7d'] := by
  have hbrace : ∀ w : Text, 0 < Text.size (w ++ ['\x7b']) := by
    intro w
    rw [Text.size_append]
    exact Nat.lt_of_lt_of_le (by decide) (Nat.le_add_left _ _)
  cases n with
  | rule s l c ns =>
    cases hb
    rw [Node.Placed] at h
    refine ⟨rfl, h.2, hbrace _, ?_⟩
    simp only [Node.extent, Node.print, Node.opening, List.append_assoc, List.cons_append,
      List.nil_append]
  | atBlock hd l c ns =>
    cases hb
    rw [Node.Placed] at h
    refine ⟨rfl, h.2, hbrace _, ?_⟩
    simp only [Node.extent, Node.print, Node.opening, List.append_assoc, List.cons_append,
      List.nil_append]
  | atStatement hd l => cases hb
  | decl d l => cases hb
  | comment t l => cases hb

/-- The block of a placed node tiles the text between its brackets. -/
theorem Node.PlacedIn.tiles {n : Node} {t : Text} (h : n.PlacedIn t) {range : Span} {b : Block}
    (hb : n.block? = some (range, b)) : b.Tiles t range := by
  obtain ⟨u, w, rfl, hplaced⟩ := h
  obtain ⟨span, hspan, hb⟩ := Option.bind_eq_some_iff.mp hb
  obtain ⟨body, hbody, hb⟩ := Option.bind_eq_some_iff.mp hb
  cases hb
  rw [hplaced.span] at hspan
  cases hspan
  obtain ⟨-, hnodes, -, hextent⟩ := hplaced.body hbody
  rw [← Text.size_append] at hnodes
  have htiled := PlacedAll.tiledFrom (u ++ n.opening) [] b.after ('\x7d' :: w) b.semicolon b.nodes
    (by rwa [List.append_nil])
  have hstop : Text.size u + Text.size n.extent - 1 =
      Text.size (u ++ n.opening ++ printAll b.semicolon b.nodes ++ b.after) := by
    have hone : Text.size ['\x7d'] = 1 := rfl
    rw [hextent]
    simp only [Text.size_append, hone]
    omega
  unfold Block.Tiles
  simp only [hstop]
  rw [hextent, ← Text.size_append]
  simpa only [List.append_nil, List.append_assoc, List.cons_append, List.nil_append] using htiled

/-- A node with a span has a block with a range, or no nodes in it. -/
theorem Node.exists_block (n : Node) {span : Span} (h : n.span = some span) :
    n.children = [] ∨ ∃ b, n.body? = some b ∧
      n.block? = some (⟨span.start + Text.size n.opening, span.stop - 1⟩, b) := by
  cases n with
  | rule s l b ns => exact .inr ⟨_, rfl, by rw [Node.block?, h]; rfl⟩
  | atBlock hd l b ns => exact .inr ⟨_, rfl, by rw [Node.block?, h]; rfl⟩
  | atStatement hd l => exact .inl rfl
  | decl d l => exact .inl rfl
  | comment t l => exact .inl rfl

/-- **The spans of a sheet that was read tile its text.** Every node has a span, which is not empty
    and cuts the node out of the text, but for the blanks and the `;` that trail a statement; the
    spans of the nodes in it lie strictly inside. The nodes of a block follow each other, and what
    stands between two of them, or between a node and an end of the block, is what trails the one
    and the blanks that belong to the other. -/
theorem Stylesheet.spans_tile {t : Text} {sheet : Stylesheet}
    (h : Stylesheet.parse t = .ok sheet) :
    (∀ n ∈ sheet.preorder, ∃ a b, n.span = some ⟨a, b⟩ ∧ a < b ∧ t.IsBoundary a ∧ t.IsBoundary b ∧
      (∃ source, sheet.sourceOf? n = some source ∧ n.print true = source ++ n.trailing true) ∧
      ∀ m ∈ n.children, ∃ c d, m.span = some ⟨c, d⟩ ∧ a < c ∧ d < b) ∧
    ∀ range body, (range, body) ∈ sheet.blocks →
      body.Tiles t range ∧ body.nodes.Pairwise Node.EndsBefore := by
  obtain ⟨hplaced, hprint, hinput⟩ := Stylesheet.placed_of_parse h
  have hin := Stylesheet.placedIn_of_parse h
  have hextent : ∀ n ∈ sheet.preorder, n.extent ≠ [] := by
    obtain ⟨b, hb, rfl⟩ := Statement.map_eq_ok h
    exact Parser.run_forall Parser.made_extent
      ⟨fun m hm => (by cases hm), fun p hp => (by cases hp)⟩ hb
  constructor
  · intro n hn
    obtain ⟨u, w, ht, hnode⟩ := hin n hn
    have hsize : Text.size n.extent ≠ 0 := fun e => hextent n hn (Text.size_eq_zero.mp e)
    refine ⟨Text.size u, Text.size u + Text.size n.extent, hnode.span, by omega,
      ⟨u, n.extent ++ w, by rw [ht, List.append_assoc], rfl⟩,
      ⟨u ++ n.extent, w, ht, Text.size_append _ _⟩, ⟨n.extent, ?_, n.print_eq_extent true⟩, ?_⟩
    · rw [Stylesheet.sourceOf?, hnode.span, hinput, ht]
      exact Text.slice?_append u n.extent w
    · intro m hm
      rcases n.exists_block hnode.span with hnone | ⟨b, hbody, hblock⟩
      · rw [hnone] at hm
        cases hm
      · obtain ⟨hchildren, -, hopening, -⟩ := hnode.body hbody
        rw [hchildren] at hm
        obtain ⟨s, hspan, hfrom, -, hto⟩ := ((hin n hn).tiles hblock).within m hm
        simp only at hfrom hto
        exact ⟨s.start, s.stop, hspan, by omega, by omega⟩
  · intro range body hmem
    have htiles : body.Tiles t range := by
      rcases List.mem_cons.mp hmem with htop | hmem
      · cases htop
        have htiled := PlacedAll.tiledFrom [] [] sheet.after [] sheet.semicolon sheet.nodes hplaced
        unfold Block.Tiles
        simp only [hinput]
        rw [← hprint]
        simpa only [List.append_nil, List.nil_append, Text.size_nil, Stylesheet.print] using htiled
      · obtain ⟨n, hn, hblock⟩ := List.mem_filterMap.mp hmem
        exact (hin n hn).tiles hblock
    exact ⟨htiles, htiles.pairwise⟩

theorem Stylesheet.spans_tile_nested : ∃ sheet,
    Stylesheet.parse "@m x\x7b .a\x7bb : c\u00a0;/*é*/d:e \x7d \x7d@i ;".toList = .ok sheet ∧
      sheet.preorder.map Node.span =
        [some ⟨0, 30⟩, some ⟨6, 28⟩, some ⟨9, 14⟩, some ⟨17, 23⟩, some ⟨23, 26⟩, some ⟨30, 32⟩] ∧
      sheet.blocks.map Prod.fst = [⟨0, 34⟩, ⟨5, 29⟩, ⟨9, 27⟩] ∧
      ∀ range body, (range, body) ∈ sheet.blocks → body.Tiles
        "@m x\x7b .a\x7bb : c\u00a0;/*é*/d:e \x7d \x7d@i ;".toList range := by
  obtain ⟨sheet, hread, hsheet⟩ := exists_ok_of_map
    (show ((Stylesheet.parse
      "@m x\x7b .a\x7bb : c\u00a0;/*é*/d:e \x7d \x7d@i ;".toList).toOption.map fun sheet =>
        (sheet.preorder.map Node.span, sheet.blocks.map Prod.fst)) =
      some ([some ⟨0, 30⟩, some ⟨6, 28⟩, some ⟨9, 14⟩, some ⟨17, 23⟩, some ⟨23, 26⟩, some ⟨30, 32⟩],
        [⟨0, 34⟩, ⟨5, 29⟩, ⟨9, 27⟩]) by decide +kernel)
  obtain ⟨hspans, hranges⟩ := Prod.mk.inj hsheet
  exact ⟨sheet, hread, hspans, hranges, fun range body hmem =>
    ((Stylesheet.spans_tile hread).2 range body hmem).1⟩

end StyleModules
