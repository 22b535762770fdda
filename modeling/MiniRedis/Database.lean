import MiniRedis.Config

/-!
# The shared database

`HashMap<String, Bytes>` behind a mutex. A map is its lookup function, so that
equal maps are equal. Each of `get` and `set` holds the mutex for one access and
is one atomic step.
-/
namespace MiniRedis

structure Database where
  entries : String → Option Bytes

namespace Database

/-- `Database::new`. -/
def new : Database := ⟨fun _ => none⟩

def get (database : Database) (key : String) : Option Bytes := database.entries key

def set (database : Database) (key : String) (value : Bytes) : Database :=
  ⟨fun k => if k = key then some value else database.entries k⟩

@[simp] theorem get_new (key : String) : new.get key = none := rfl

@[simp] theorem get_set_self (database : Database) (key : String) (value : Bytes) :
    (database.set key value).get key = some value := by
  simp [get, set]

theorem get_set_of_ne (database : Database) {key k : String} (value : Bytes) (h : k ≠ key) :
    (database.set key value).get k = database.get k := by
  simp [get, set, h]

theorem get_set (database : Database) (key k : String) (value : Bytes) :
    (database.set key value).get k = if k = key then some value else database.get k := rfl

/-- Databases that hold the same are equal. -/
theorem eq_of_get {database database' : Database} (h : ∀ key, database.get key = database'.get key) :
    database = database' := by
  obtain ⟨entries⟩ := database
  obtain ⟨entries'⟩ := database'
  exact congrArg Database.mk (funext h)

end Database
end MiniRedis
