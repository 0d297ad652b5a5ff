import ExiSchema.Table.Uris

/-!
The tables with which every compilation starts. Their four URI rows keep their places for good, as
do the local names that the tables start with.
-/

set_option autoImplicit false

namespace ExiSchema

namespace Namespaces

def xml : String := "http://www.w3.org/XML/1998/namespace"

def xmlSchemaInstance : String := "http://www.w3.org/2001/XMLSchema-instance"

def xmlSchema : String := "http://www.w3.org/2001/XMLSchema"

end Namespaces

namespace UriTable

/-- The number of URI rows that are never moved. -/
def reservedUris : Nat := 4

/-- For each reserved URI row the number of local names that are never moved. -/
def reservedNames : List Nat := [0, 4, 2, 46]

def xmlNames : List String := ["base", "id", "lang", "space"]

def xmlSchemaInstanceNames : List String := ["nil", "type"]

/-- The built-in types. -/
def xmlSchemaNames : List String :=
  ["ENTITIES", "ENTITY", "ID", "IDREF", "IDREFS", "NCName", "NMTOKEN", "NMTOKENS", "NOTATION",
    "Name", "QName", "anySimpleType", "anyType", "anyURI", "base64Binary", "boolean", "byte",
    "date", "dateTime", "decimal", "double", "duration", "float", "gDay", "gMonth", "gMonthDay",
    "gYear", "gYearMonth", "hexBinary", "int", "integer", "language", "long", "negativeInteger",
    "nonNegativeInteger", "nonPositiveInteger", "normalizedString", "positiveInteger", "short",
    "string", "time", "token", "unsignedByte", "unsignedInt", "unsignedLong", "unsignedShort"]

def nameTable (names : List String) : NameTable :=
  Table.ofRows ((names.filterMap Label.ofText?).map fun label => { label }).toArray

def reservedRow (uri : String) (names : List String) (prefixes : List String) :
    Option UriRow :=
  (Label.ofText? uri).map fun label =>
    { label
      names := some (nameTable names)
      prefixes :=
        if prefixes.isEmpty then none
        else some (Table.ofRows ((prefixes.filterMap Label.ofText?).map PrefixRow.mk).toArray) }

/-- No namespace, XML, XML Schema instance and XML Schema, in this order. -/
def initial : UriTable :=
  Table.ofRows ([
    reservedRow "" [] [""],
    reservedRow Namespaces.xml xmlNames ["xml"],
    reservedRow Namespaces.xmlSchemaInstance xmlSchemaInstanceNames ["xsi"],
    reservedRow Namespaces.xmlSchema xmlSchemaNames []].reduceOption).toArray

end UriTable

end ExiSchema
