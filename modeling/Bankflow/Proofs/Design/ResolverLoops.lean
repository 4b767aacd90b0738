import Bankflow.Design.Resolver
import Bankflow.Proofs.Dataflow.Store
import Bankflow.Proofs.Design.WellFormed

/-!
# Resolving arrays, settings and loops

What a resolver does is said by equations. It notes the findings of what it looks at, in order
(`Resolver.note`). The first pass leaves the arrays of a program with their places as numbers, and
a table of their names (`collectArrays_collected`). Accesses and loops are then looked up in this
table (`Resolver.Knows`): an access becomes what it becomes in a design (`resolveAccess_eq`), and
the loops of a body are numbered one after the other (`resolveBody_eq`).
-/

namespace Bankflow

open Source (Ident Number Index ArrayDecl SettingValue Statement Program)

/-! ## First uses of names -/

/-- What comes later in a list is kept if its key is not among those that were kept. -/
theorem firstBy_append {α : Type} (key : α → String) :
    ∀ (l l' : List α) (seen : List String), firstBy key seen (l ++ l') =
      firstBy key seen l ++ firstBy key (((firstBy key seen l).map key).reverse ++ seen) l'
  | [], _, _ => rfl
  | a :: l, l', seen => by
    rw [List.cons_append, firstBy, firstBy]
    split
    · exact firstBy_append key l l' seen
    · rw [firstBy_append key l l', List.cons_append, List.map_cons, List.reverse_cons,
        List.append_assoc, List.singleton_append]

theorem arrayFindings_append :
    ∀ (l l' : List ArrayDecl) (seen : List String), arrayFindings seen (l ++ l') =
      arrayFindings seen l ++ arrayFindings
        (((firstBy (·.name.name) seen l).map (·.name.name)).reverse ++ seen) l'
  | [], _, _ => rfl
  | d :: l, l', seen => by
    rw [List.cons_append, arrayFindings, arrayFindings, firstBy]
    split
    · rw [arrayFindings_append l l' seen, List.cons_append]
    · simp only [arrayFindings_append l l', List.map_cons, List.reverse_cons, List.append_assoc,
        List.singleton_append]

theorem length_memoriesOf_le (l l' : List ArrayDecl) :
    (memoriesOf l).length ≤ (memoriesOf (l ++ l')).length := by
  rw [memoriesOf, memoriesOf, firstBy_append, List.length_map, List.length_map, List.length_append]
  exact Nat.le_add_right _ _

theorem memoryNamed?_eq_none_iff {memories : List Memory} {name : String} :
    memoryNamed? memories name = none ↔ name ∉ memories.map (·.name) := by
  rw [memoryNamed?, List.findIdx?_eq_none_iff, List.mem_map]
  constructor
  · rintro h ⟨m, hm, hname⟩
    exact of_decide_eq_false (h m hm) hname
  · exact fun h m hm => decide_eq_false fun hname => h ⟨m, hm, hname⟩

theorem memoriesOf_snoc (decls : List ArrayDecl) (d : ArrayDecl) :
    memoriesOf (decls ++ [d]) = memoriesOf decls ++
      if d.name.name ∈ (memoriesOf decls).map (·.name) then [] else [.ofDecl d] := by
  rw [map_name_memoriesOf, memoriesOf, memoriesOf, firstBy_append, List.map_append]
  simp only [firstBy, List.append_nil, List.mem_reverse]
  split <;> rfl

theorem arrayFindings_snoc (decls : List ArrayDecl) (d : ArrayDecl) :
    arrayFindings [] (decls ++ [d]) = arrayFindings [] decls ++
      if d.name.name ∈ (memoriesOf decls).map (·.name) then
        [⟨.duplicateArray d.name.name, d.name.span⟩]
      else shapeFindings d ++ spaceFindings d := by
  rw [arrayFindings_append, map_name_memoriesOf]
  simp only [arrayFindings, List.append_nil, List.mem_reverse]

/-! ## Scopes -/

/-- The variables in scope. -/
def NestScope.scope (s : NestScope) : Scope := s.visible.map fun x => (x.1, x.2.toNat)

/-- Looking for a name, and for what is known of it. -/
theorem find?_eq_lookup {α β : Type} (f : α → β) (name : String) :
    ∀ xs : List (String × α), (xs.map fun x => (x.1, f x.2)).find? (·.1 = name) =
      (xs.lookup name).map fun a => (name, f a)
  | [] => rfl
  | x :: xs => by
    rw [List.map_cons, List.find?_cons, List.lookup_cons]
    by_cases hx : x.1 = name
    · simp [hx]
    · have hne : (name == x.1) = false := beq_eq_false_iff_ne.mpr (Ne.symm hx)
      simp only [hx, decide_false, hne]
      exact find?_eq_lookup f name xs

theorem NestScope.find?_scope (s : NestScope) (name : String) :
    s.scope.find? name = (s.visible.lookup name).map (·.toNat) := by
  rw [Scope.find?, scope, find?_eq_lookup, Option.map_map]
  rfl

/-- The scope with no numbers. -/
def Scope.blank (s : Scope) : Scope := s.map fun x => (x.1, 0)

theorem Scope.isSome_find?_blank (s : Scope) (name : String) :
    (s.blank.find? name).isSome = (s.find? name).isSome := by
  rw [Bool.eq_iff_iff, Scope.isSome_find?_iff, Scope.isSome_find?_iff, blank, List.map_map]
  rfl

/-- Which variables are unknown is a matter of names. -/
theorem Source.Index.unknowns_blank (scope : Scope) :
    ∀ e : Index, e.unknowns scope.blank = e.unknowns scope
  | .int _ => rfl
  | .var x => by rw [unknowns, unknowns, Scope.isSome_find?_blank]
  | .neg e _ => unknowns_blank scope e
  | .binary _ l r => by
    rw [unknowns, unknowns, unknowns_blank scope l, unknowns_blank scope r]

theorem firstUnknowns_blank (scope : Scope) :
    ∀ es : List Index, firstUnknowns scope.blank es = firstUnknowns scope es
  | [] => rfl
  | e :: es => by
    rw [firstUnknowns, firstUnknowns, e.unknowns_blank, firstUnknowns_blank scope es]

theorem accessFindings_blank (memories : List Memory) (scope : Scope) (a : Source.Access) :
    accessFindings memories scope.blank a = accessFindings memories scope a := by
  rw [accessFindings, accessFindings, firstUnknowns_blank]

theorem headFindings_blank (scope : Scope) (h : Source.LoopHead) :
    headFindings scope.blank h = headFindings scope h := by
  rw [headFindings, headFindings, shadowFindings, shadowFindings, Scope.isSome_find?_blank]

/-- An index has an expression if all of its variables are in scope. -/
theorem Source.Index.isSome_lower?_iff {scope : Scope} :
    ∀ {e : Index}, (e.lower? scope).isSome ↔ e.unknowns scope = []
  | .int _ => iff_of_true rfl rfl
  | .var x => by
    rw [lower?, Option.isSome_map, unknowns]
    split
    · next h => exact iff_of_true h rfl
    · next h => exact iff_of_false h (List.cons_ne_nil _ _)
  | .neg e _ => by
    rw [lower?, Option.isSome_map, unknowns]
    exact isSome_lower?_iff
  | .binary _ l r => by
    rw [lower?, unknowns, List.append_eq_nil_iff, ← isSome_lower?_iff, ← isSome_lower?_iff]
    cases l.lower? scope <;> cases r.lower? scope <;> simp

/-- An array with its place as its number. -/
def StoredMemory.of (i : Nat) (m : Memory) : StoredMemory := ⟨.ofNat i, m⟩

namespace Resolver

variable {o : Overflow} {r : Resolver}

/-! ## Findings -/

/-- The resolver with some more findings. -/
def note (r : Resolver) (fs : List Finding) : Resolver := { r with findings := r.findings ++ fs }

theorem note_nil (r : Resolver) : r.note [] = r := by rw [note, List.append_nil]

theorem note_note (r : Resolver) (fs gs : List Finding) :
    (r.note fs).note gs = r.note (fs ++ gs) := by
  simp only [note, List.append_assoc]

theorem report_eq_note (r : Resolver) (f : Finding) : r.report f = r.note [f] := rfl

/-- The resolver with `n` as the next number of a loop. -/
def withLoops (r : Resolver) (n : Nat) : Resolver := { r with ids := r.ids.set (.ofNat n) .loop }

theorem withLoops_eq_self {n : Nat} (h : r.ids.loop = .ofNat n) : r.withLoops n = r := by
  rw [withLoops, Counters.set, ← h]

theorem withLoops_note_withLoops (r : Resolver) (n m : Nat) (fs : List Finding) :
    ((r.withLoops n).note fs).withLoops m = (r.note fs).withLoops m := rfl

/-! ## Arrays -/

theorem collectShape_eq (name : String) :
    ∀ (ns : List Number) (r : Resolver), r.collectShape name ns =
      (r.note (ns.filterMap fun n =>
        if n.value.toInt ≤ 0 then some ⟨.emptyDimension name, n.span⟩ else none),
        ns.map dimensionSize)
  | [], r => by rw [collectShape, List.filterMap_nil, note_nil, List.map_nil]
  | n :: ns, r => by
    have hle : n.value ≤ 0 ↔ n.value.toInt ≤ 0 := Int64.le_iff_toInt_le
    rw [collectShape, List.filterMap_cons, List.map_cons]
    by_cases hn : n.value.toInt ≤ 0
    · simp only [if_pos hn, if_pos (hle.mpr hn), collectShape_eq name ns, report_eq_note,
        note_note, List.singleton_append]
    · simp only [if_neg hn, if_neg (hle.not.mpr hn), collectShape_eq name ns]

theorem collectSpace_eq (r : Resolver) (d : ArrayDecl) :
    r.collectSpace d.memorySpace = (r.note (spaceFindings d), spaceOf d.memorySpace) := by
  rw [spaceFindings]
  cases d.memorySpace with
  | none => rw [collectSpace, note_nil, spaceOf]
  | some n =>
    by_cases hn : isSpace n
    · simp only [collectSpace, spaceOf, hn, if_true, note_nil]
    · simp only [collectSpace, spaceOf, hn, if_false, report_eq_note, Bool.false_eq_true]

/-- Arrays with their places as numbers. -/
def storedMemories (memories : List Memory) : List StoredMemory := memories.mapIdx StoredMemory.of

/-- The places of arrays by their names. -/
def arrayTable (memories : List Memory) : List (String × UInt32) :=
  (memories.mapIdx fun i m => (m.name, UInt32.ofNat i)).reverse

/-- A resolver that knows some arrays. -/
structure Knows (r : Resolver) (memories : List Memory) : Prop where
  stored : r.stored.memories = storedMemories memories
  arrays : r.arrays = arrayTable memories
  names : (memories.map (·.name)).Nodup
  fits : memories.length < 2 ^ 32

theorem Knows.note {memories : List Memory} (h : r.Knows memories) (fs : List Finding) :
    (r.note fs).Knows memories :=
  ⟨h.stored, h.arrays, h.names, h.fits⟩

theorem Knows.withLoops {memories : List Memory} (h : r.Knows memories) (n : Nat) :
    (r.withLoops n).Knows memories :=
  ⟨h.stored, h.arrays, h.names, h.fits⟩

theorem lookup_arrayTable {memories : List Memory} (h : (memories.map (·.name)).Nodup)
    (name : String) :
    (arrayTable memories).lookup name = (memoryNamed? memories name).map UInt32.ofNat :=
  Dataflow.Store.lookup_names Memory.name name h

theorem storedMemories_snoc (memories : List Memory) (m : Memory) :
    storedMemories (memories ++ [m]) = storedMemories memories ++ [⟨.ofNat memories.length, m⟩] :=
  List.mapIdx_concat

theorem arrayTable_snoc (memories : List Memory) (m : Memory) :
    arrayTable (memories ++ [m]) = (m.name, .ofNat memories.length) :: arrayTable memories := by
  rw [arrayTable, List.mapIdx_concat, List.reverse_append, List.reverse_singleton,
    List.singleton_append]
  rfl

/-- What a resolver has done after some declarations of arrays. -/
def collected (decls : List ArrayDecl) : Resolver where
  stored := ⟨storedMemories (memoriesOf decls), [], .empty⟩
  options := {}
  findings := arrayFindings [] decls
  ids := ⟨.ofNat (memoriesOf decls).length, 0, 0, 0, 0⟩
  arrays := arrayTable (memoriesOf decls)

theorem collectArray_collected (decls : List ArrayDecl) (d : ArrayDecl)
    (hfits : (memoriesOf decls).length < 2 ^ 32) :
    (collected decls).collectArray o d = o.counted (memoriesOf (decls ++ [d])).length
      (.ok (collected (decls ++ [d]))) := by
  have hlookup : (collected decls).arrays.lookup d.name.name = _ :=
    lookup_arrayTable (nodup_names_memoriesOf decls) d.name.name
  rw [collectArray, hlookup]
  by_cases hmem : d.name.name ∈ (memoriesOf decls).map (·.name)
  · have hsame : memoriesOf (decls ++ [d]) = memoriesOf decls := by
      rw [memoriesOf_snoc, if_pos hmem, List.append_nil]
    obtain ⟨i, hi⟩ := Option.ne_none_iff_exists'.mp (memoryNamed?_eq_none_iff.not_left.mpr hmem)
    rw [hsame, Overflow.counted_of_reaches (.inr hfits), hi, collected, collected, hsame,
      arrayFindings_snoc, if_pos hmem]
    rfl
  · have hnew : memoriesOf (decls ++ [d]) = memoriesOf decls ++ [.ofDecl d] := by
      rw [memoriesOf_snoc, if_neg hmem]
    have hlength : (memoriesOf (decls ++ [d])).length = (memoriesOf decls).length + 1 := by
      rw [hnew, List.length_append, List.length_singleton]
    have htake := Counters.take_eq o (collected decls).ids .array rfl (.inr hfits)
    have hnext : collected (decls ++ [d]) =
        { stored := ⟨storedMemories (memoriesOf decls) ++
            [⟨.ofNat (memoriesOf decls).length, .ofDecl d⟩], [], .empty⟩
          options := {}
          findings := arrayFindings [] decls ++ (shapeFindings d ++ spaceFindings d)
          ids := ⟨.ofNat ((memoriesOf decls).length + 1), 0, 0, 0, 0⟩
          arrays := (d.name.name, .ofNat (memoriesOf decls).length) ::
            arrayTable (memoriesOf decls) } := by
      rw [collected, arrayFindings_snoc, if_neg hmem, hlength, hnew, storedMemories_snoc,
        arrayTable_snoc]
      rfl
    rw [memoryNamed?_eq_none_iff.mpr hmem, hlength, hnext]
    simp only [Option.map_none, collectShape_eq, collectSpace_eq, note_note]
    rw [show ((collected decls).note _).ids = (collected decls).ids from rfl, htake,
      Overflow.counted, Overflow.counted]
    split <;> rfl

theorem collectArrays_cons (o : Overflow) (r : Resolver) (s : Statement) (ss : List Statement) :
    r.collectArrays o (s :: ss) =
      s.array?.elim (.ok r) (r.collectArray o) >>= fun r => r.collectArrays o ss := by
  rw [collectArrays, Source.Statement.array?]
  cases s.decl <;> rfl

/-- The first pass. -/
theorem collectArrays_collected :
    ∀ (ss : List Statement) (decls : List ArrayDecl), (memoriesOf decls).length < 2 ^ 32 →
      (o = .stops ∨ (memoriesOf (decls ++ ss.filterMap (·.array?))).length < 2 ^ 32) →
      (collected decls).collectArrays o ss =
        o.counted (memoriesOf (decls ++ ss.filterMap (·.array?))).length
          (.ok (collected (decls ++ ss.filterMap (·.array?))))
  | [], decls, hfits, _ => by
    rw [List.filterMap_nil, List.append_nil, Overflow.counted_of_reaches (.inr hfits)]
    rfl
  | s :: ss, decls, hfits, hroom => by
    rw [collectArrays_cons, List.filterMap_cons] at *
    cases hs : s.array? with
    | none =>
      rw [hs] at hroom
      exact collectArrays_collected ss decls hfits hroom
    | some d =>
      have happend : decls ++ d :: ss.filterMap (·.array?) =
          decls ++ [d] ++ ss.filterMap (·.array?) := by
        rw [List.append_assoc, List.singleton_append]
      simp only [hs, happend] at hroom ⊢
      have hle := length_memoriesOf_le (decls ++ [d]) (ss.filterMap (·.array?))
      refine Overflow.bind_counted (collectArray_collected decls d hfits) hle fun hreaches => ?_
      exact collectArrays_collected ss (decls ++ [d]) (hreaches.lt hle hroom) hroom

/-! ## Settings -/

/-- The resolver with other options. -/
def withOptions (r : Resolver) (options : Options) : Resolver := { r with options }

theorem resolveSetting_eq (r : Resolver) (name : Ident) (value : SettingValue) :
    r.resolveSetting name value =
      (r.note (settingFindings name value)).withOptions (r.options.set (name, value)) := by
  rw [resolveSetting, settingFindings, Options.set]
  by_cases hname : name.name = "ignore_violations"
  · simp only [hname, if_true]
    cases value.bool? with
    | none => rfl
    | some b =>
      simp only [Option.isSome_some, if_true, note_nil]
      rfl
  · simp only [hname, if_false]
    rfl

/-! ## Loops -/

/-- What is said about an unknown variable. -/
def unknownVariable (x : Ident) : Finding := ⟨.unknownVariable x.name, x.span⟩

theorem lowerIndex_eq (scope : NestScope) :
    ∀ (e : Index) (r : Resolver), r.lowerIndex scope e =
      (r.note ((e.unknowns scope.scope).map unknownVariable), e.lower? scope.scope)
  | .int n, r => by rw [lowerIndex, Index.unknowns, List.map_nil, note_nil, Index.lower?]
  | .var x, r => by
    rw [lowerIndex, Index.unknowns, Index.lower?, scope.find?_scope]
    cases scope.visible.lookup x.name with
    | none => rfl
    | some var =>
      simp only [Option.map_some, Option.isSome_some, if_true, List.map_nil, note_nil]
  | .neg e _, r => by
    rw [lowerIndex, lowerIndex_eq scope e]
    rfl
  | .binary op left right, r => by
    rw [lowerIndex, lowerIndex_eq scope left]
    simp only [lowerIndex_eq scope right, note_note, Index.unknowns, List.map_append]
    rfl

theorem lowerIndices_eq (scope : NestScope) :
    ∀ (es : List Index) (r : Resolver), r.lowerIndices scope es =
      (r.note ((firstUnknowns scope.scope es).map unknownVariable), lowerAll? scope.scope es)
  | [], r => by rw [lowerIndices, firstUnknowns, List.map_nil, note_nil, lowerAll?]
  | e :: es, r => by
    rw [lowerIndices, lowerIndex_eq, firstUnknowns, lowerAll?]
    have hsome : (e.lower? scope.scope).isSome ↔ e.unknowns scope.scope = [] :=
      Index.isSome_lower?_iff
    cases he : e.lower? scope.scope with
    | none =>
      have hne : e.unknowns scope.scope ≠ [] := fun h => by simpa [he] using hsome.mpr h
      rw [if_neg hne]
      rfl
    | some a =>
      have hnil : e.unknowns scope.scope = [] := hsome.mp (by rw [he]; rfl)
      simp only [hnil, List.map_nil, note_nil, if_true, lowerIndices_eq scope es]
      cases lowerAll? scope.scope es <;> rfl

theorem resolveAccess_eq {memories : List Memory} (h : r.Knows memories) (scope : NestScope)
    (a : Source.Access) : r.resolveAccess scope a =
      .ok (r.note (accessFindings memories scope.scope a),
        Access.ofSource? memories scope.scope a) := by
  rw [resolveAccess, h.arrays, lookup_arrayTable h.names, accessFindings, Access.ofSource?]
  cases hname : memoryNamed? memories a.array.name with
  | none => rfl
  | some i =>
    have hi := memoryNamed?_lt hname
    have hnat : (UInt32.ofNat i).toNat = i :=
      UInt32.toNat_ofNat_of_lt' (Nat.lt_trans hi h.fits)
    have hmemory : r.stored.memories[i]? = some ⟨.ofNat i, memories[i]⟩ := by
      rw [h.stored, storedMemories, List.getElem?_mapIdx, List.getElem?_eq_getElem hi]
      rfl
    simp only [Option.map_some, hnat, hmemory, Option.bind_some, List.getElem?_eq_getElem hi,
      Option.bind_eq_bind, lowerIndices_eq]
    split
    · cases lowerAll? scope.scope a.indices <;> rfl
    · rfl

theorem resolveStep_eq (r : Resolver) (h : Source.LoopHead) :
    r.resolveStep h.step = (r.note (stepFindings h.step), h.stepOf) := by
  rw [Source.LoopHead.stepOf]
  cases h.step with
  | none => rw [resolveStep, stepFindings, note_nil]
  | some n =>
    by_cases hn : n.value = 0
    · simp only [resolveStep, stepFindings, hn, if_true, report_eq_note]
    · simp only [resolveStep, stepFindings, hn, if_false, note_nil]

theorem resolveHead_eq (scope : NestScope) (h : Source.LoopHead) {id : Nat}
    (hid : r.ids.loop = UInt32.ofNat id) (hreaches : o.Reaches id) :
    r.resolveHead o scope h = o.counted (id + 1)
      (.ok ((r.note (headFindings scope.scope h)).withLoops (id + 1), scope.enter h.var.name,
        ⟨(UInt32.ofNat id).toNat, (UInt32.ofNat scope.names.length).toNat, h.lower, h.upper,
          h.stepOf, h.pipeline⟩)) := by
  have hshadow : (if (scope.visible.lookup h.var.name).isSome then
      r.report ⟨.shadowedVariable h.var.name, h.var.span⟩ else r) =
        r.note (shadowFindings scope.scope h.var) := by
    rw [shadowFindings, scope.find?_scope, Option.isSome_map]
    split
    · rfl
    · exact (note_nil r).symm
  have htake := Counters.take_eq o r.ids .loop hid hreaches
  rw [resolveHead]
  simp only [hshadow, resolveStep_eq, note_note]
  rw [show (r.note _).ids = r.ids from rfl, htake, Overflow.counted, Overflow.counted]
  split <;> rfl

/-- A body is gone through as the loops in it are numbered. -/
theorem resolveBody_eq {memories : List Memory} :
    ∀ (body : Source.LoopBody) (r : Resolver) (scope : NestScope) (id : Nat), r.Knows memories →
      r.ids.loop = UInt32.ofNat id → o.Reaches id → scope.names.length ≤ id →
      (o = .stops ∨ id + body.heads.length < 2 ^ 32) →
      r.resolveBody o scope body = o.counted (id + body.heads.length)
        (.ok ((r.note (bodyFindings memories scope.scope.blank body)).withLoops
            (id + body.heads.length),
          { scope with names := scope.names ++ body.heads.map (·.var.name) },
          lowerBody memories scope.scope id scope.names.length body))
  | .done, r, scope, id, _, hid, hreaches, _, _ => by
    have hsame : (r.note []).withLoops id = r := by rw [note_nil, withLoops_eq_self hid]
    simp only [Body.heads, List.length_nil, Nat.add_zero, List.map_nil, List.append_nil,
      bodyFindings, hsame, resolveBody, lowerBody, Overflow.counted_of_reaches hreaches]
  | .access a rest, r, scope, id, hr, hid, hreaches, hnames, hroom => by
    have hrest := resolveBody_eq rest _ scope id
      (hr.note (accessFindings memories scope.scope a)) hid hreaches hnames hroom
    rw [resolveBody, resolveAccess_eq hr, Body.heads, lowerBody, bodyFindings,
      accessFindings_blank]
    refine Overflow.bind_counted (Overflow.counted_of_reaches hreaches).symm (Nat.le_add_right _ _)
      fun _ => ?_
    refine Overflow.bind_counted hrest (Nat.le_refl _) fun hend => ?_
    rw [Overflow.counted_of_reaches hend, note_note]
    cases Access.ofSource? memories scope.scope a <;> rfl
  | .loop h inner rest, r, scope, id, hr, hid, hreaches, hnames, hroom => by
    have hcount : id + (Body.loop h inner rest).heads.length =
        id + 1 + inner.heads.length + rest.heads.length := by
      rw [Body.heads, List.length_cons, List.length_append]
      omega
    rw [hcount] at hroom ⊢
    rw [resolveBody]
    refine Overflow.bind_counted (resolveHead_eq scope h hid hreaches) (by omega) fun hstart => ?_
    have hlt : id + 1 < 2 ^ 32 := hstart.lt (by omega) hroom
    have hvar : (UInt32.ofNat scope.names.length).toNat = scope.names.length :=
      UInt32.toNat_ofNat_of_lt' (show scope.names.length < 2 ^ 32 by omega)
    have hnat : (UInt32.ofNat id).toNat = id :=
      UInt32.toNat_ofNat_of_lt' (show id < 2 ^ 32 by omega)
    have hscope : (scope.enter h.var.name).scope =
        (h.var.name, scope.names.length) :: scope.scope := by
      rw [NestScope.enter, NestScope.scope, List.map_cons, hvar]
      rfl
    have henter : (scope.enter h.var.name).names.length = scope.names.length + 1 :=
      List.length_append
    have hinner := resolveBody_eq inner _ (scope.enter h.var.name) (id + 1)
      ((hr.note (headFindings scope.scope h)).withLoops (id + 1)) rfl hstart (by omega)
      (hroom.imp_right (by omega))
    refine Overflow.bind_counted hinner (by omega) fun hmiddle => ?_
    have hleave : (scope.names ++ [h.var.name] ++ inner.heads.map (·.var.name)).length =
        scope.names.length + 1 + inner.heads.length := by
      rw [List.length_append, List.length_append, List.length_singleton, List.length_map]
    have hrest := resolveBody_eq rest _
      ⟨scope.names ++ [h.var.name] ++ inner.heads.map (·.var.name), scope.visible⟩
      (id + 1 + inner.heads.length)
      ((((hr.note (headFindings scope.scope h)).withLoops (id + 1)).note
        (bodyFindings memories (scope.enter h.var.name).scope.blank inner)).withLoops
          (id + 1 + inner.heads.length)) rfl hmiddle (by rw [hleave]; omega) hroom
    refine Overflow.bind_counted hrest (Nat.le_refl _) fun hend => ?_
    rw [Overflow.counted_of_reaches hend, hscope, hleave, henter, hvar, hnat]
    simp only [withLoops_note_withLoops, note_note, bodyFindings, headFindings_blank, lowerBody,
      Body.heads, List.map_cons, List.map_append, List.append_assoc]
    rfl

/-- The resolver with one more nest. -/
def addNest (r : Resolver) (n : Nest) : Resolver :=
  { r with stored := { r.stored with nests := r.stored.nests ++ [n] } }

theorem resolveNest_eq {memories : List Memory} (hr : r.Knows memories) (h : Source.LoopHead)
    (body : Source.LoopBody) {id : Nat} (hid : r.ids.loop = UInt32.ofNat id)
    (hreaches : o.Reaches id) (hroom : o = .stops ∨ id + 1 + body.heads.length < 2 ^ 32) :
    r.resolveNest o h body = o.counted (id + 1 + body.heads.length)
      (.ok (((r.note (headFindings [] h ++ bodyFindings memories [(h.var.name, 0)] body)).withLoops
        (id + 1 + body.heads.length)).addNest (.ofSource memories id h body))) := by
  have hhead := resolveHead_eq .empty h hid hreaches
  rw [resolveNest]
  refine Overflow.bind_counted hhead (Nat.le_add_right _ _) fun hstart => ?_
  have hlt : id + 1 < 2 ^ 32 := hstart.lt (Nat.le_add_right _ _) hroom
  have hnat : (UInt32.ofNat id).toNat = id :=
    UInt32.toNat_ofNat_of_lt' (show id < 2 ^ 32 by omega)
  have hbody := resolveBody_eq body _ (NestScope.empty.enter h.var.name) (id + 1)
    ((hr.note (headFindings [] h)).withLoops (id + 1)) rfl hstart
    (Nat.le_add_left 1 id) hroom
  refine Overflow.bind_counted hbody (Nat.le_refl _) fun hend => ?_
  rw [Overflow.counted_of_reaches hend, withLoops_note_withLoops, note_note, hnat]
  rfl

end Resolver

end Bankflow
