import Redcurrant.Infra.RowTable
import Redcurrant.Sqliterepo.Version

/-!
# meta2 の base

`meta2v2/m2gen.py` が定める表と `generic.c` の操作。container ごとの base は 6 つの表と version と size を持つ。
-/

namespace Redcurrant.Meta2

open Infra List

/-! ## 行 -/

/-- `alias_v2` -/
structure Alias where
  «alias» : Bytes
  (version containerVersion : Int)
  (contentId mdsys : Bytes)
  ctime : Int
  deleted : Bool
  deriving DecidableEq

/-- `properties_v2` -/
structure Property where
  «alias» : Bytes
  aliasVersion : Int
  (key value : Bytes)
  deleted : Bool
  deriving DecidableEq

/-- `content_v2`。1 つの chunk を content の 1 つの位置に結ぶ。 -/
structure Content where
  (contentId chunkId position : Bytes)
  deriving DecidableEq

/-- `content_header_v2` -/
structure Header where
  id : Bytes
  (policy hash : Option Bytes)
  size : Int
  deriving DecidableEq

/-- `chunk_v2` -/
structure Chunk where
  (id hash : Bytes)
  (size ctime : Int)
  deriving DecidableEq

/-- `snapshot_v2` -/
structure Snapshot where
  version : Int
  name : Bytes
  deriving DecidableEq

/-! ## 主鍵 -/

def Alias.pk (a : Alias) : Option (Bytes × Int) := some (a.alias, a.version)

def Property.pk (p : Property) : Option (Bytes × Int × Bytes) :=
  some (p.alias, p.aliasVersion, p.key)

def Content.pk (c : Content) : Option (Bytes × Bytes × Bytes) :=
  some (c.contentId, c.chunkId, c.position)

/-- header の主鍵。policy が NULL の行には無い。 -/
def Header.pk (h : Header) : Option (Bytes × Bytes) := h.policy.map (h.id, ·)

def Chunk.pk (c : Chunk) : Option Bytes := some c.id

def Snapshot.pk (s : Snapshot) : Option Int := some s.version

@[simp] theorem clash_alias {a b : Alias} :
    Clash Alias.pk a b ↔ a.alias = b.alias ∧ a.version = b.version := by
  simp [Clash, Alias.pk]

@[simp] theorem clash_property {p q : Property} : Clash Property.pk p q ↔
    p.alias = q.alias ∧ p.aliasVersion = q.aliasVersion ∧ p.key = q.key := by
  simp [Clash, Property.pk]

@[simp] theorem clash_content {a b : Content} : Clash Content.pk a b ↔ a = b := by
  cases a
  cases b
  simp [Clash, Content.pk]

@[simp] theorem clash_chunk {a b : Chunk} : Clash Chunk.pk a b ↔ a.id = b.id := by
  simp [Clash, Chunk.pk]

theorem Header.id_eq_of_clash {a b : Header} (h : Clash Header.pk a b) : a.id = b.id := by
  obtain ⟨hs, he⟩ := h
  obtain ⟨ida, pa, _, _⟩ := a
  obtain ⟨idb, pb, _, _⟩ := b
  cases pa with
  | none => simp [Header.pk] at hs
  | some pa =>
    cases pb with
    | none => simp [Header.pk] at he
    | some pb =>
      simp only [Header.pk, Option.map_some, Option.some.injEq, Prod.mk.injEq] at he
      exact he.1

/-! ## bean -/

inductive Bean
  | aliases (a : Alias)
  | properties (p : Property)
  | contents (c : Content)
  | contentsHeaders (h : Header)
  | chunks (c : Chunk)
  | snapshots (s : Snapshot)
  deriving DecidableEq

def Bean.alias? : Bean → Option Alias
  | .aliases a => some a
  | _ => none

def Bean.header? : Bean → Option Header
  | .contentsHeaders h => some h
  | _ => none

def Bean.content? : Bean → Option Content
  | .contents c => some c
  | _ => none

def Bean.chunk? : Bean → Option Chunk
  | .chunks c => some c
  | _ => none

def Bean.property? : Bean → Option Property
  | .properties p => some p
  | _ => none

def Bean.snapshot? : Bean → Option Snapshot
  | .snapshots s => some s
  | _ => none

def aliasesIn (l : List Bean) : List Alias := l.filterMap Bean.alias?

def headersIn (l : List Bean) : List Header := l.filterMap Bean.header?

def contentsIn (l : List Bean) : List Content := l.filterMap Bean.content?

def chunksIn (l : List Bean) : List Chunk := l.filterMap Bean.chunk?

def propertiesIn (l : List Bean) : List Property := l.filterMap Bean.property?

def snapshotsIn (l : List Bean) : List Snapshot := l.filterMap Bean.snapshot?

section

variable {α : Type} {f : Bean → Option α} {c : α → Bean} {g : α → α}

theorem mem_filterMap_bean (h : ∀ x a, f x = some a ↔ x = c a) {l : List Bean} {a : α} :
    a ∈ l.filterMap f ↔ c a ∈ l := by
  simp [h]

theorem filterMap_rewrite {u : Bean → Option Bean} (h : ∀ x, (u x).bind f = (f x).map g)
    (l : List Bean) : (l.filterMap u).filterMap f = (l.filterMap f).map g := by
  rw [filterMap_filterMap, map_filterMap]
  exact congrArg (l.filterMap ·) (funext h)

theorem filterMap_map_rewrite {u : Bean → Bean} (h : ∀ x, f (u x) = (f x).map g)
    (l : List Bean) : (l.map u).filterMap f = (l.filterMap f).map g := by
  rw [filterMap_map, map_filterMap]
  exact congrArg (l.filterMap ·) (funext h)

end

variable {l : List Bean}

theorem mem_aliasesIn {a : Alias} : a ∈ aliasesIn l ↔ .aliases a ∈ l :=
  mem_filterMap_bean fun x _ => by cases x <;> simp [Bean.alias?]

theorem mem_headersIn {h : Header} : h ∈ headersIn l ↔ .contentsHeaders h ∈ l :=
  mem_filterMap_bean fun x _ => by cases x <;> simp [Bean.header?]

theorem mem_contentsIn {c : Content} : c ∈ contentsIn l ↔ .contents c ∈ l :=
  mem_filterMap_bean fun x _ => by cases x <;> simp [Bean.content?]

theorem mem_chunksIn {c : Chunk} : c ∈ chunksIn l ↔ .chunks c ∈ l :=
  mem_filterMap_bean fun x _ => by cases x <;> simp [Bean.chunk?]

theorem rows_eq_nil (h : ∀ x ∈ l, x.alias? = none ∧ x.header? = none ∧ x.snapshot? = none) :
    aliasesIn l = [] ∧ headersIn l = [] ∧ snapshotsIn l = [] :=
  ⟨filterMap_eq_nil_iff.mpr fun x hx => (h x hx).1,
    filterMap_eq_nil_iff.mpr fun x hx => (h x hx).2.1,
    filterMap_eq_nil_iff.mpr fun x hx => (h x hx).2.2⟩

/-! ## base -/

/-- 1 つの container の base。`version` と `size` は admin table の値。 -/
@[ext] structure Base where
  aliases : RowTable Alias.pk
  properties : RowTable Property.pk
  contents : RowTable Content.pk
  headers : RowTable Header.pk
  chunks : RowTable Chunk.pk
  snapshots : RowTable Snapshot.pk
  version : Int
  size : Int

namespace Base

/-- 作られたばかりの container。version は 0。 -/
def init : Base where
  aliases := .empty
  properties := .empty
  contents := .empty
  headers := .empty
  chunks := .empty
  snapshots := .empty
  version := 0
  size := 0

variable (b : Base)

/-- `_db_save_bean` -/
def save : Bean → Base
  | .aliases a => { b with aliases := b.aliases.replaceInto a }
  | .properties p => { b with properties := b.properties.replaceInto p }
  | .contents c => { b with contents := b.contents.replaceInto c }
  | .contentsHeaders h => { b with headers := b.headers.replaceInto h }
  | .chunks c => { b with chunks := b.chunks.replaceInto c }
  | .snapshots s => { b with snapshots := b.snapshots.replaceInto s }

/-- `_db_save_beans_array` -/
def saveAll (l : List Bean) : Base := l.foldl (fun b x => b.save x) b

/-- `_db_delete_bean` -/
def remove : Bean → Base
  | .aliases a => { b with aliases := b.aliases.erase a }
  | .properties p => { b with properties := b.properties.erase p }
  | .contents c => { b with contents := b.contents.erase c }
  | .contentsHeaders h => { b with headers := b.headers.erase h }
  | .chunks c => { b with chunks := b.chunks.erase c }
  | .snapshots s => { b with snapshots := b.snapshots.erase s }

def removeAll (l : List Bean) : Base := l.foldl (fun b x => b.remove x) b

/-- `m2db_set_size` -/
def setSize (n : Int) : Base := { b with size := n }

/-- `m2db_increment_version` -/
def incrementVersion : Base := { b with version := b.version + 1 }

/-! ### 保存した後の表と消した後の表 -/

/-- 1 行ずつの操作が値を選ばれた行だけで変える -/
theorem foldl_pick {σ α β : Type} {op : σ → Bean → σ} {v : σ → β} {act : β → α → β}
    {pick : Bean → Option α} (h : ∀ s x, v (op s x) = (pick x).elim (v s) (act (v s)))
    {l : List Bean} {s : σ} : v (l.foldl op s) = (l.filterMap pick).foldl act (v s) := by
  induction l generalizing s with
  | nil => rfl
  | cons x l ih =>
    rw [foldl_cons, ih, h, filterMap_cons]
    cases pick x <;> rfl

variable (l : List Bean)

theorem aliases_saveAll : (b.saveAll l).aliases = b.aliases.replaceAll (aliasesIn l) :=
  foldl_pick fun _ x => by cases x <;> rfl

theorem headers_saveAll : (b.saveAll l).headers = b.headers.replaceAll (headersIn l) :=
  foldl_pick fun _ x => by cases x <;> rfl

theorem contents_saveAll : (b.saveAll l).contents = b.contents.replaceAll (contentsIn l) :=
  foldl_pick fun _ x => by cases x <;> rfl

theorem chunks_saveAll : (b.saveAll l).chunks = b.chunks.replaceAll (chunksIn l) :=
  foldl_pick fun _ x => by cases x <;> rfl

theorem properties_saveAll : (b.saveAll l).properties = b.properties.replaceAll (propertiesIn l) :=
  foldl_pick fun _ x => by cases x <;> rfl

theorem snapshots_saveAll : (b.saveAll l).snapshots = b.snapshots.replaceAll (snapshotsIn l) :=
  foldl_pick fun _ x => by cases x <;> rfl

@[simp] theorem version_saveAll : (b.saveAll l).version = b.version := by
  induction l generalizing b with
  | nil => rfl
  | cons x l ih => cases x <;> exact ih _

@[simp] theorem size_saveAll : (b.saveAll l).size = b.size := by
  induction l generalizing b with
  | nil => rfl
  | cons x l ih => cases x <;> exact ih _

theorem aliases_removeAll : (b.removeAll l).aliases = b.aliases.eraseAll (aliasesIn l) :=
  foldl_pick fun _ x => by cases x <;> rfl

theorem headers_removeAll : (b.removeAll l).headers = b.headers.eraseAll (headersIn l) :=
  foldl_pick fun _ x => by cases x <;> rfl

theorem contents_removeAll : (b.removeAll l).contents = b.contents.eraseAll (contentsIn l) :=
  foldl_pick fun _ x => by cases x <;> rfl

theorem chunks_removeAll : (b.removeAll l).chunks = b.chunks.eraseAll (chunksIn l) :=
  foldl_pick fun _ x => by cases x <;> rfl

@[simp] theorem version_removeAll : (b.removeAll l).version = b.version := by
  induction l generalizing b with
  | nil => rfl
  | cons x l ih => cases x <;> exact ih _

theorem snapshots_removeAll : (b.removeAll l).snapshots = b.snapshots.eraseAll (snapshotsIn l) :=
  foldl_pick fun _ x => by cases x <;> rfl

end Base

/-! ## version の方針 -/

def VersionsEnabled (maxVersions : Int) : Prop := 1 < maxVersions ∨ maxVersions < 0

def VersionsSuspended (maxVersions : Int) : Prop := maxVersions = 1

def VersionsDisabled (maxVersions : Int) : Prop := maxVersions = 0

def VersionsUnlimited (maxVersions : Int) : Prop := maxVersions < 0

instance (m : Int) : Decidable (VersionsEnabled m) := inferInstanceAs (Decidable (_ ∨ _))

instance (m : Int) : Decidable (VersionsSuspended m) := inferInstanceAs (Decidable (_ = _))

instance (m : Int) : Decidable (VersionsDisabled m) := inferInstanceAs (Decidable (_ = _))

instance (m : Int) : Decidable (VersionsUnlimited m) := inferInstanceAs (Decidable (_ < _))

theorem versions_cases (m : Int) :
    VersionsDisabled m ∨ VersionsSuspended m ∨ VersionsEnabled m := by
  simp only [VersionsDisabled, VersionsSuspended, VersionsEnabled]
  omega

theorem VersionsEnabled.not_disabled {m : Int} (h : VersionsEnabled m) : ¬ VersionsDisabled m := by
  simp only [VersionsEnabled, VersionsDisabled] at h ⊢
  omega

theorem VersionsEnabled.not_suspended {m : Int} (h : VersionsEnabled m) :
    ¬ VersionsSuspended m := by
  simp only [VersionsEnabled, VersionsSuspended] at h ⊢
  omega

end Redcurrant.Meta2
