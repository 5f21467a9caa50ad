import DataLineage.Project.Registry

/-!
# Fingerprints of registries

A registry is written as one byte string, record after record, and its fingerprint is the SHA-256
digest of that string. Caches use the fingerprint in place of the registry.
-/

namespace DataLineage

/-- The digest of a registry's content, as hexadecimal text. -/
structure Fingerprint where
  hex : String
  deriving DecidableEq, Repr, Inhabited

/-- Ends a record's name and its type. -/
def fieldEnd : UInt8 := 0x1f

/-- Ends one dependency name. -/
def dependencyEnd : UInt8 := 0x1e

/-- Ends a record. -/
def recordEnd : UInt8 := 0x1d

def utf8 (s : String) : List UInt8 := s.toUTF8.toList

/-- A record as bytes: its name, its type's tag and its dependency names in order, each with its end
mark, and the end mark of the record. -/
def ObjectRecord.encode (record : ObjectRecord) : List UInt8 :=
  utf8 record.name ++ fieldEnd :: (utf8 record.type.tag ++ fieldEnd ::
    (record.dependsOn.flatMap (fun name => utf8 name ++ [dependencyEnd]) ++ [recordEnd]))

namespace Registry

/-- The records as bytes, in order. -/
def encode (r : Registry) : List UInt8 := r.toList.flatMap ObjectRecord.encode

def fingerprint (r : Registry) : Fingerprint := ⟨Sha256.hexDigest r.encode⟩

end Registry

end DataLineage
