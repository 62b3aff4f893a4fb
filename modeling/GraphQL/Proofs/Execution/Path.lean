import Mathlib.Data.Fintype.EquivFin
import Mathlib.Data.List.Induction
import Mathlib.Data.List.Infix
import GraphQL.Proofs.Execution.Completion.Errors

/-! # Paths are their segment lists

Two paths are the same if they have the same segments, and one starts with another if its segments
do, whatever the ordinals. Where paths are stored as linked nodes that they share, that know their
lengths and that are compared by their addresses first, the answers stay the same: an address that is
in use leads to one path only, whatever is extended, copied or given up, and whichever free addresses
are taken again.
-/

namespace GraphQL

namespace Path

variable {p q r : Path}

/-! ## Segment lists -/

@[simp]
theorem length_segments (p : Path) : p.segments.length = p.length := by
  induction p with
  | root => rfl
  | extend p s n ih => rw [segments, List.length_append, ih]; rfl

theorem length_ordinals (p : Path) : p.ordinals.length = p.segments.length := by
  rw [segments_eq, ordinals_eq, List.length_map, List.length_map]

theorem same_iff : p.same q ↔ p.segments = q.segments := by
  induction p generalizing q with
  | root => cases q <;> simp [same, segments]
  | extend p s m ih =>
    cases q with
    | root => simp [same, segments]
    | extend q t n =>
      have hconcat : p.segments ++ [s] = q.segments ++ [t] ↔ p.segments = q.segments ∧ s = t := by
        simp
      rw [same, Bool.and_eq_true, Bool.and_eq_true, beq_iff_eq, beq_iff_eq, ih, segments, segments,
        hconcat]
      -- The lengths that are compared first are those of the segments.
      constructor
      · rintro ⟨⟨-, hlast⟩, hrest⟩
        exact ⟨hrest, hlast⟩
      · rintro ⟨hrest, hlast⟩
        have hlength := congrArg List.length hrest
        rw [length_segments, length_segments] at hlength
        exact ⟨⟨hlength, hlast⟩, hrest⟩

theorem segments_ancestor (p : Path) (n : Nat) :
    (p.ancestor n).segments = p.segments.take (p.length - n) := by
  induction p generalizing n with
  | root => cases n <;> simp [ancestor, segments]
  | extend p s m ih =>
    cases n with
    | zero => rw [ancestor, Nat.sub_zero, ← length_segments, List.take_length]
    | succ n =>
      have hshort : p.length - n ≤ p.segments.length := by
        rw [length_segments]
        exact Nat.sub_le _ _
      rw [ancestor, ih, length, Nat.add_sub_add_right, segments, List.take_append_of_le_length hshort]

theorem startsWith_iff : p.startsWith q ↔ q.segments <+: p.segments := by
  have hancestor (hle : q.length ≤ p.length) :
      (p.ancestor (p.length - q.length)).segments = p.segments.take q.segments.length := by
    rw [segments_ancestor, Nat.sub_sub_self hle, length_segments]
  rw [startsWith, Bool.and_eq_true, decide_eq_true_eq, same_iff]
  constructor
  · rintro ⟨hle, hsame⟩
    rw [List.prefix_iff_eq_take, ← hancestor hle, hsame]
  · intro hbelow
    have hle : q.length ≤ p.length := by simpa using hbelow.length_le
    exact ⟨hle, (hancestor hle).trans (List.prefix_iff_eq_take.mp hbelow).symm⟩

/-! ## The order of paths -/

theorem startsWith_root (p : Path) : p.startsWith root := startsWith_iff.mpr List.nil_prefix

theorem startsWith_trans (hpq : p.startsWith q) (hqr : q.startsWith r) : p.startsWith r :=
  startsWith_iff.mpr ((startsWith_iff.mp hqr).trans (startsWith_iff.mp hpq))

theorem startsWith_both_iff : p.startsWith q ∧ q.startsWith p ↔ p.same q := by
  rw [startsWith_iff, startsWith_iff, same_iff]
  constructor
  · rintro ⟨hqp, hpq⟩
    exact antisymm hpq hqp
  · intro heq
    rw [heq]
    exact ⟨List.prefix_rfl, List.prefix_rfl⟩

/-! ## Extensions -/

/-- How a path grows by one segment. -/
inductive Extension where
  | key (name : String) (ordinal : Nat)
  | index (n : Nat)
deriving DecidableEq

def Extension.segment : Extension → Segment
  | .key name _ => .key name
  | .index n => .index n

def Extension.ordinal : Extension → Nat
  | .key _ ordinal => ordinal
  | .index n => n

def extendBy (p : Path) : Extension → Path
  | .key name ordinal => p.key name ordinal
  | .index n => p.index n

/-- The path that some extensions make from the root. -/
def made (extensions : List Extension) : Path := extensions.foldl extendBy root

theorem extendBy_eq (p : Path) (e : Extension) : p.extendBy e = p.extend e.segment e.ordinal := by
  cases e <;> rfl

theorem made_concat (extensions : List Extension) (e : Extension) :
    made (extensions ++ [e]) = (made extensions).extend e.segment e.ordinal := by
  rw [made, List.foldl_concat, extendBy_eq]
  rfl

theorem steps_made (extensions : List Extension) :
    (made extensions).steps = extensions.map fun e => (e.segment, e.ordinal) := by
  induction extensions using List.reverseRecOn with
  | nil => rfl
  | append_singleton extensions e ih => rw [made_concat, steps, ih, List.map_append, List.map_singleton]

theorem segments_made (extensions : List Extension) :
    (made extensions).segments = extensions.map (·.segment) := by
  rw [segments_eq, steps_made, List.map_map]
  rfl

theorem ordinals_made (extensions : List Extension) :
    (made extensions).ordinals = extensions.map (·.ordinal) := by
  rw [ordinals_eq, steps_made, List.map_map]
  rfl

/-! ## Stored paths -/

/-- A segment as it is stored. -/
structure Node where
  address : Nat
  segment : Segment
  ordinal : Nat
  /-- How many nodes there are from the root to here. -/
  length : Nat
deriving DecidableEq

/-- The nodes of a path from the last, each followed by its parent. The root has none. -/
abbrev Stored := List Node

namespace Stored

variable {p q u v : Stored}

/-- The length that the last node knows. -/
def known : Stored → Nat
  | [] => 0
  | node :: _ => node.length

def push (p : Stored) (address : Nat) (e : Extension) : Stored :=
  ⟨address, e.segment, e.ordinal, p.known + 1⟩ :: p

def segments (p : Stored) : List Segment := p.reverse.map (·.segment)

def ordinals (p : Stored) : List Nat := p.reverse.map (·.ordinal)

/-- Whether two paths are the same. If they end in one node, nothing above it is looked at. -/
def same : Stored → Stored → Bool
  | [], [] => true
  | a :: p, b :: q =>
    a.address == b.address || (a.length == b.length && a.segment == b.segment && same p q)
  | _, _ => false

/-- The path `n` segments up, if there are so many. -/
def climb : Stored → Nat → Option Stored
  | p, 0 => some p
  | [], _ + 1 => none
  | _ :: p, n + 1 => climb p n

def startsWith (p other : Stored) : Bool :=
  other.known ≤ p.known && (p.climb (p.known - other.known)).any (same · other)

/-- The path that is stored. -/
def path : Stored → Path
  | [] => root
  | node :: p => (path p).extend node.segment node.ordinal

theorem steps_path (p : Stored) :
    p.path.steps = p.reverse.map fun node => (node.segment, node.ordinal) := by
  induction p with
  | nil => rfl
  | cons node p ih => rw [path, steps, ih, List.reverse_cons, List.map_append, List.map_singleton]

theorem segments_path (p : Stored) : p.path.segments = p.segments := by
  rw [segments_eq, steps_path, List.map_map]
  rfl

theorem ordinals_path (p : Stored) : p.path.ordinals = p.ordinals := by
  rw [ordinals_eq, steps_path, List.map_map]
  rfl

theorem length_path (p : Stored) : p.path.length = List.length p := by
  rw [← length_segments, segments_path, segments, List.length_map, List.length_reverse]

theorem path_drop (p : Stored) (n : Nat) : path (p.drop n) = p.path.ancestor n := by
  induction p generalizing n with
  | nil => cases n <;> rfl
  | cons node p ih =>
    cases n with
    | zero => rfl
    | succ n => exact ih n

theorem climb_eq_drop {n : Nat} (h : n ≤ List.length p) : p.climb n = some (p.drop n) := by
  induction p generalizing n with
  | nil => rw [Nat.le_zero.mp h]; rfl
  | cons node p ih =>
    cases n with
    | zero => rfl
    | succ n => exact ih (Nat.le_of_succ_le_succ h)

/-- Whether all nodes know their lengths. -/
def Measured (p : Stored) : Prop :=
  ∀ node above, node :: above <:+ p → node.length = List.length above + 1

/-- Whether an address leads to one path, wherever it stands in two paths. -/
def Shares (p q : Stored) : Prop :=
  ∀ a u b v, a :: u <:+ p → b :: v <:+ q → a.address = b.address → a :: u = b :: v

theorem Measured.suffix (h : p.Measured) (hu : u <:+ p) : u.Measured :=
  fun node above hnode => h node above (hnode.trans hu)

theorem Shares.suffix (h : p.Shares q) (hu : u <:+ p) (hv : v <:+ q) : u.Shares v :=
  fun a above b beyond ha hb => h a above b beyond (ha.trans hu) (hb.trans hv)

theorem Shares.symm (h : p.Shares q) : q.Shares p :=
  fun a u b v ha hb haddress => (h b v a u hb ha haddress.symm).symm

theorem Measured.known_eq (h : p.Measured) : p.known = p.path.length := by
  rw [length_path]
  cases p with
  | nil => rfl
  | cons node p => exact h node p (List.suffix_refl _)

theorem same_path (hp : p.Measured) (hq : q.Measured) (h : p.Shares q) :
    p.same q = p.path.same q.path := by
  induction p generalizing q with
  | nil => cases q <;> rfl
  | cons a p ih =>
    cases q with
    | nil => rfl
    | cons b q =>
      by_cases haddress : a.address = b.address
      · have heq : a :: p = b :: q :=
          h a p b q (List.suffix_refl _) (List.suffix_refl _) haddress
        rw [same, haddress, beq_self_eq_true, Bool.true_or, heq]
        exact (same_iff.mpr rfl).symm
      · have hrest : same p q = (path p).same (path q) :=
          ih (hp.suffix (List.suffix_cons a p)) (hq.suffix (List.suffix_cons b q))
            (h.suffix (List.suffix_cons a p) (List.suffix_cons b q))
        have hlength : (a.length == b.length) = ((path p).length == (path q).length) := by
          rw [hp a p (List.suffix_refl _), hq b q (List.suffix_refl _), length_path, length_path,
            Bool.eq_iff_iff, beq_iff_eq, beq_iff_eq, Nat.add_right_cancel_iff]
        rw [same, beq_false_of_ne haddress, Bool.false_or, hlength, hrest]
        rfl

theorem startsWith_path (hp : p.Measured) (hq : q.Measured) (h : p.Shares q) :
    p.startsWith q = p.path.startsWith q.path := by
  have hclimb : p.climb (p.known - q.known) = some (p.drop (p.known - q.known)) := by
    refine climb_eq_drop ?_
    rw [hp.known_eq, length_path]
    exact Nat.sub_le _ _
  have hdrop := List.drop_suffix (p.known - q.known) p
  rw [startsWith, Path.startsWith, hclimb, Option.any_some,
    same_path (hp.suffix hdrop) hq (h.suffix hdrop (List.suffix_refl q)), path_drop,
    hp.known_eq, hq.known_eq]

end Stored

/-! ## All paths that are in use -/

/-- Whether no path has a node at an address. -/
def Free (paths : List (Stored × List Extension)) (address : Nat) : Prop :=
  ∀ p ∈ paths, ∀ node ∈ p.1, node.address ≠ address

instance (paths : List (Stored × List Extension)) (address : Nat) : Decidable (Free paths address) :=
  inferInstanceAs (Decidable (∀ p ∈ paths, ∀ node ∈ p.1, node.address ≠ address))

/-- Whether some paths can be in use at one time, each made by its extensions. Paths are copied and
given up at will, and a new node may be at any address that is free by then. -/
inductive InUse : List (Stored × List Extension) → Prop
  | nothing : InUse []
  | root {paths} (h : InUse paths) : InUse (([], []) :: paths)
  | extend {paths p extensions} (h : InUse paths) (hp : (p, extensions) ∈ paths) (e : Extension)
      (address : Nat) (hfree : Free paths address) :
      InUse ((p.push address e, extensions ++ [e]) :: paths)
  | keep {paths kept} (h : InUse paths) (hkept : kept ⊆ paths) : InUse kept

variable {paths kept : List (Stored × List Extension)} {extensions : List Extension}

theorem exists_free (paths : List (Stored × List Extension)) : ∃ address, Free paths address := by
  obtain ⟨address, hfree⟩ :=
    Infinite.exists_notMem_finset (paths.flatMap fun p => p.1.map (·.address)).toFinset
  refine ⟨address, fun p hp node hnode heq => hfree ?_⟩
  rw [List.mem_toFinset, List.mem_flatMap]
  exact ⟨p, hp, List.mem_map.mpr ⟨node, hnode, heq⟩⟩

/-- Beside whatever is in use, all extensions can be made from the root. -/
theorem InUse.exists_path (h : InUse paths) (extensions : List Extension) :
    ∃ p, InUse ((p, extensions) :: paths) := by
  induction extensions using List.reverseRecOn with
  | nil => exact ⟨[], h.root⟩
  | append_singleton extensions e ih =>
    obtain ⟨p, hp⟩ := ih
    obtain ⟨address, hfree⟩ := exists_free ((p, extensions) :: paths)
    have hlonger := hp.extend List.mem_cons_self e address hfree
    -- The path that was extended is given up.
    exact ⟨p.push address e, hlonger.keep (List.cons_subset_cons _ (List.subset_cons_self _ _))⟩

/-- What is true of all paths that are in use at one time. -/
structure Coherent (paths : List (Stored × List Extension)) : Prop where
  measured : ∀ p ∈ paths, p.1.Measured
  shares : ∀ p ∈ paths, ∀ q ∈ paths, p.1.Shares q.1
  path : ∀ p ∈ paths, p.1.path = made p.2

namespace Coherent

variable {p : Stored}

theorem nothing : Coherent [] := ⟨by simp, by simp, by simp⟩

theorem keep (h : Coherent paths) (hkept : kept ⊆ paths) : Coherent kept where
  measured p hp := h.measured p (hkept hp)
  shares p hp q hq := h.shares p (hkept hp) q (hkept hq)
  path p hp := h.path p (hkept hp)

theorem cons (h : Coherent paths) (hmeasured : p.Measured) (hself : p.Shares p)
    (hothers : ∀ q ∈ paths, p.Shares q.1) (hpath : p.path = made extensions) :
    Coherent ((p, extensions) :: paths) where
  measured := List.forall_mem_cons.mpr ⟨hmeasured, h.measured⟩
  shares := by
    refine List.forall_mem_cons.mpr ⟨List.forall_mem_cons.mpr ⟨hself, hothers⟩, fun q hq => ?_⟩
    exact List.forall_mem_cons.mpr ⟨(hothers q hq).symm, h.shares q hq⟩
  path := List.forall_mem_cons.mpr ⟨hpath, h.path⟩

theorem root (h : Coherent paths) : Coherent (([], []) :: paths) := by
  have hnode (node : Node) (above : Stored) : ¬ node :: above <:+ [] := by simp
  have hshares (q : Stored) : Stored.Shares [] q := fun a u _ _ ha => absurd ha (hnode a u)
  exact h.cons (fun node above h => absurd h (hnode node above)) (hshares []) (fun q _ => hshares q.1) rfl

/-- A new node is where no other path has one, so what it shares with them is what its parent does. -/
theorem extend (h : Coherent paths) (hp : (p, extensions) ∈ paths) (e : Extension) {address : Nat}
    (hfree : Free paths address) : Coherent ((p.push address e, extensions ++ [e]) :: paths) := by
  have hothers (q : Stored × List Extension) (hq : q ∈ paths) : (p.push address e).Shares q.1 := by
    intro a u b v ha hb haddress
    rcases List.suffix_cons_iff.mp ha with hnew | hold
    · obtain ⟨rfl, rfl⟩ := List.cons.inj hnew
      exact absurd haddress.symm (hfree q hq b (hb.subset List.mem_cons_self))
    · exact h.shares _ hp q hq a u b v hold hb haddress
  refine h.cons ?_ ?_ hothers ?_
  · intro node above hnode
    rcases List.suffix_cons_iff.mp hnode with hnew | hold
    · obtain ⟨rfl, rfl⟩ := List.cons.inj hnew
      change Stored.known above + 1 = _
      rw [(h.measured _ hp).known_eq, Stored.length_path]
    · exact h.measured _ hp node above hold
  · intro a u b v ha hb haddress
    rcases List.suffix_cons_iff.mp hb with hnew | hold
    · rcases List.suffix_cons_iff.mp ha with hnew' | hold
      · rw [hnew, hnew']
      · obtain ⟨rfl, rfl⟩ := List.cons.inj hnew
        exact absurd haddress (hfree _ hp a (hold.subset List.mem_cons_self))
    · exact hothers _ hp a u b v ha hold haddress
  · change (Stored.path p).extend e.segment e.ordinal = made (extensions ++ [e])
    rw [made_concat, h.path _ hp]

end Coherent

theorem InUse.coherent (h : InUse paths) : Coherent paths := by
  induction h with
  | nothing => exact .nothing
  | root _ ih => exact ih.root
  | extend _ hp e _ hfree ih => exact ih.extend hp e hfree
  | keep _ hkept ih => exact ih.keep hkept

end Path

/-! ## Paths are their segment lists -/

open GraphQL.Path

/-- The answers about paths are those about their segments: of two paths, how long they are, whether
they are the same and whether one starts with the other, which is an order with the root below all.
The segments and ordinals are those of the extensions that make the path. However paths come to share
their nodes, what is stored gives the same answers. -/
theorem paths_list_segments :
    (∀ p q : Path, p.length = p.segments.length ∧ p.ordinals.length = p.segments.length ∧
      (p.same q ↔ p.segments = q.segments) ∧ (p.startsWith q ↔ q.segments <+: p.segments)) ∧
    (∀ p q r : Path, p.startsWith .root ∧ p.startsWith p ∧
      (p.startsWith q → q.startsWith r → p.startsWith r) ∧
      (p.startsWith q ∧ q.startsWith p ↔ p.same q)) ∧
    (∀ extensions, (made extensions).segments = extensions.map (·.segment) ∧
      (made extensions).ordinals = extensions.map (·.ordinal)) ∧
    ∀ paths, InUse paths → (∀ extensions, ∃ p, InUse ((p, extensions) :: paths)) ∧
      ∀ p es q fs, (p, es) ∈ paths → (q, fs) ∈ paths →
        p.known = (made es).length ∧ p.segments = (made es).segments ∧
        p.ordinals = (made es).ordinals ∧ p.same q = (made es).same (made fs) ∧
        p.startsWith q = (made es).startsWith (made fs) := by
  refine ⟨fun p q => ?_, fun p q r => ?_, fun extensions => ?_, fun paths hpaths => ?_⟩
  · exact ⟨(length_segments p).symm, length_ordinals p, same_iff, startsWith_iff⟩
  · exact ⟨startsWith_root p, startsWith_iff.mpr List.prefix_rfl, startsWith_trans,
      startsWith_both_iff⟩
  · exact ⟨segments_made extensions, ordinals_made extensions⟩
  · refine ⟨hpaths.exists_path, fun p es q fs hp hq => ?_⟩
    have hall := hpaths.coherent
    have hpMeasured := hall.measured _ hp
    have hqMeasured := hall.measured _ hq
    have hshares := hall.shares _ hp _ hq
    rw [← hall.path _ hp, ← hall.path _ hq]
    exact ⟨hpMeasured.known_eq, (Stored.segments_path p).symm, (Stored.ordinals_path p).symm,
      Stored.same_path hpMeasured hqMeasured hshares,
      Stored.startsWith_path hpMeasured hqMeasured hshares⟩

/-! ## A path that is made twice -/

/-- `hero` -/
def sampleHero : Stored := Stored.push [] 1 (.key "hero" 0)

/-- `hero.name`, with the node of `hero` -/
def sampleName : Stored := sampleHero.push 2 (.key "name" 1)

/-- `hero.name` with other ordinals and nodes of its own -/
def sampleAgain : Stored := (Stored.push [] 3 (.key "hero" 5)).push 4 (.key "name" 0)

def samplePaths : List (Stored × List Extension) :=
  [(sampleAgain, [.key "hero" 5, .key "name" 0]), (sampleName, [.key "hero" 0, .key "name" 1]),
    (sampleHero, [.key "hero" 0])]

theorem inUse_samplePaths : InUse samplePaths := by
  have hhero : InUse [(sampleHero, [.key "hero" 0]), ([], [])] :=
    InUse.nothing.root.extend List.mem_cons_self _ 1 (by decide)
  have hname : InUse [(sampleName, [.key "hero" 0, .key "name" 1]), (sampleHero, [.key "hero" 0]),
      ([], [])] :=
    hhero.extend List.mem_cons_self _ 2 (by decide)
  -- Another path is given up, and its address is taken again.
  have hdroid := hname.extend (.tail _ (.tail _ (.head _))) (.key "droid" 0) 3 (by decide)
  have hkept := hdroid.keep (List.subset_cons_self _ _)
  have hother := hkept.extend (.tail _ (.tail _ (.head _))) (.key "hero" 5) 3 (by decide)
  have hagain := hother.extend List.mem_cons_self (.key "name" 0) 4 (by decide)
  exact hagain.keep (by decide)

/-- The two are the same and start with `hero`, though only one of them has its node, and so does what
is below them. -/
theorem samplePaths_list_segments : InUse samplePaths ∧ sampleName.same sampleAgain ∧
    sampleAgain.startsWith sampleHero ∧ sampleHero.startsWith sampleAgain = false ∧
    sampleAgain.known = 2 ∧ sampleAgain.ordinals = [5, 0] ∧
    (sampleName.path.index 2).startsWith sampleHero.path := by
  have hagain : (sampleAgain, _) ∈ samplePaths := .head _
  have hname : (sampleName, _) ∈ samplePaths := .tail _ (.head _)
  have hhero : (sampleHero, _) ∈ samplePaths := .tail _ (.tail _ (.head _))
  obtain ⟨-, horder, -, hstored⟩ := paths_list_segments
  obtain ⟨-, hanswers⟩ := hstored samplePaths inUse_samplePaths
  obtain ⟨-, -, -, hsame, -⟩ := hanswers _ _ _ _ hname hagain
  obtain ⟨hknown, -, hordinals, -, hbelow⟩ := hanswers _ _ _ _ hagain hhero
  obtain ⟨-, -, -, -, habove⟩ := hanswers _ _ _ _ hhero hagain
  obtain ⟨-, -, htrans, -⟩ := horder (sampleName.path.index 2) sampleAgain.path sampleHero.path
  exact ⟨inUse_samplePaths, hsame, hbelow, habove, hknown, hordinals,
    htrans (by decide) (by decide)⟩

end GraphQL
