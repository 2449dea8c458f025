import Dangling.Library.Model

/-!
# Library — Standard

Models of the standard library: explicit release, forgetting, reconstruction of ownership from raw
pointers, accessors that point into an argument, and constructors of fresh values.
-/

namespace Dangling.Library

/-- Releases its first argument now. -/
def release (description : String) : Model :=
  { drops := [0], manual := true, description }

/-- Releases what its first argument points to. -/
def releaseAt (description : String) : Model :=
  { drops := [0], manual := true, throughPointer := true, description }

/-- Consumes its first argument without releasing it; the result points into it. -/
def forget (description : String) : Model :=
  { forgets := [0], retAliases := [0], retOwned := some false, description }

/-- Makes a new owner of the memory that its first argument points to. -/
def reconstruct (description : String) : Model :=
  { reconstructs := [0], retAliases := [0], retOwned := some true, description }

/-- The result points into the first argument. -/
def accessor (description : String) : Model :=
  { retAliases := [0], retOwned := some false, description }

/-- The result is fresh, and owned if its type needs drop. -/
def fresh (description : String) : Model := { description }

/-- The result is the value inside the first argument. -/
def unwrap (description : String) : Model :=
  { retAliases := [0], retOwned := some true, description }

/-- Calls that release memory now. -/
def releases : Library :=
  [("mem::drop", release "mem::drop() - drops its argument now"),
    ("ptr::drop_in_place", releaseAt "ptr::drop_in_place() - runs the pointee's destructor"),
    ("ManuallyDrop::drop", releaseAt "ManuallyDrop::drop() - drops the wrapped value"),
    ("alloc::dealloc", releaseAt "alloc::dealloc() - frees a raw allocation"),
    ("alloc::alloc::dealloc", releaseAt "alloc::dealloc() - frees a raw allocation")]

/-- Calls that consume a value without releasing it. -/
def forgetting : Library :=
  [("mem::forget", forget "mem::forget() - takes ownership without running drop"),
    ("Box::into_raw", forget "Box::into_raw() - releases the box as a raw pointer"),
    ("Box::leak", forget "Box::leak() - leaks the box"),
    ("Vec::leak", forget "Vec::leak() - leaks the vector"),
    ("String::leak", forget "String::leak() - leaks the string"),
    ("Vec::into_raw_parts", forget "Vec::into_raw_parts() - releases the buffer"),
    ("ManuallyDrop::new", forget "ManuallyDrop::new() - suppresses the destructor"),
    ("CString::into_raw", forget "CString::into_raw() - releases the C string"),
    ("Rc::into_raw", forget "Rc::into_raw() - releases the Rc"),
    ("Arc::into_raw", forget "Arc::into_raw() - releases the Arc")]

/-- Calls that make a new owner from a raw pointer. -/
def reconstructions : Library :=
  [("Box::from_raw", reconstruct "Box::from_raw() - takes ownership of a raw pointer"),
    ("Vec::from_raw_parts", reconstruct "Vec::from_raw_parts() - takes ownership of a buffer"),
    ("String::from_raw_parts",
      reconstruct "String::from_raw_parts() - takes ownership of a buffer"),
    ("Rc::from_raw", reconstruct "Rc::from_raw() - takes ownership of a raw Rc"),
    ("Arc::from_raw", reconstruct "Arc::from_raw() - takes ownership of a raw Arc"),
    ("CString::from_raw", reconstruct "CString::from_raw() - takes ownership of a C string"),
    ("ptr::read", reconstruct "ptr::read() - bitwise copy creating a second owner"),
    ("ptr::read_unaligned",
      reconstruct "ptr::read_unaligned() - bitwise copy creating a second owner"),
    ("ptr::read_volatile",
      reconstruct "ptr::read_volatile() - bitwise copy creating a second owner"),
    ("ManuallyDrop::take", reconstruct "ManuallyDrop::take() - moves the value out of the slot")]

/-- Calls whose result points into an argument. -/
def accessors : Library :=
  [("Vec::as_ptr", accessor "Vec::as_ptr() - raw pointer to the buffer"),
    ("Vec::as_mut_ptr", accessor "Vec::as_mut_ptr() - raw pointer to the buffer"),
    ("Vec::as_slice", accessor "Vec::as_slice() - borrow of the buffer"),
    ("Vec::as_mut_slice", accessor "Vec::as_mut_slice() - borrow of the buffer"),
    ("Vec::deref", accessor "Vec::deref() - borrow of the buffer"),
    ("Vec::deref_mut", accessor "Vec::deref_mut() - borrow of the buffer"),
    ("String::as_ptr", accessor "String::as_ptr() - raw pointer to the buffer"),
    ("String::as_mut_ptr", accessor "String::as_mut_ptr() - raw pointer to the buffer"),
    ("String::as_str", accessor "String::as_str() - borrow of the buffer"),
    ("String::as_mut_vec", accessor "String::as_mut_vec() - borrow of the buffer"),
    ("String::deref", accessor "String::deref() - borrow of the buffer"),
    ("Box::as_ptr", accessor "Box::as_ptr() - raw pointer to the contents"),
    ("Box::as_mut_ptr", accessor "Box::as_mut_ptr() - raw pointer to the contents"),
    ("Box::deref", accessor "Box::deref() - borrow of the contents"),
    ("Box::deref_mut", accessor "Box::deref_mut() - borrow of the contents"),
    ("Rc::as_ptr", accessor "Rc::as_ptr() - raw pointer to the contents"),
    ("Rc::deref", accessor "Rc::deref() - borrow of the contents"),
    ("Arc::as_ptr", accessor "Arc::as_ptr() - raw pointer to the contents"),
    ("Arc::deref", accessor "Arc::deref() - borrow of the contents"),
    ("CString::as_ptr", accessor "CString::as_ptr() - raw pointer to the C string"),
    ("CStr::as_ptr", accessor "CStr::as_ptr() - raw pointer to the C string"),
    ("ManuallyDrop::deref", accessor "ManuallyDrop::deref() - borrow of the wrapped value"),
    ("ManuallyDrop::deref_mut", accessor "ManuallyDrop::deref_mut() - borrow of the wrapped value"),
    ("slice::as_ptr", accessor "<[T]>::as_ptr() - raw pointer to the slice"),
    ("slice::as_mut_ptr", accessor "<[T]>::as_mut_ptr() - raw pointer to the slice"),
    ("slice::get_unchecked", accessor "<[T]>::get_unchecked() - element borrow"),
    ("slice::get_unchecked_mut", accessor "<[T]>::get_unchecked_mut() - element borrow"),
    ("slice::from_raw_parts", accessor "slice::from_raw_parts() - borrow from a raw pointer"),
    ("slice::from_raw_parts_mut",
      accessor "slice::from_raw_parts_mut() - borrow from a raw pointer"),
    ("str::as_ptr", accessor "str::as_ptr() - raw pointer to the bytes"),
    ("mut_ptr::add", accessor "<*mut T>::add() - pointer arithmetic"),
    ("mut_ptr::offset", accessor "<*mut T>::offset() - pointer arithmetic"),
    ("const_ptr::add", accessor "<*const T>::add() - pointer arithmetic"),
    ("const_ptr::offset", accessor "<*const T>::offset() - pointer arithmetic"),
    ("NonNull::as_ptr", accessor "NonNull::as_ptr() - raw pointer"),
    ("NonNull::new_unchecked", accessor "NonNull::new_unchecked() - wraps a raw pointer")]

/-- Calls that make a fresh value. -/
def constructors : Library :=
  [("Vec::new", fresh "Vec::new() - empty vector"),
    ("Vec::with_capacity", fresh "Vec::with_capacity() - allocates a buffer"),
    ("Vec::clone", fresh "Vec::clone() - deep copy"),
    ("Vec::from", fresh "Vec::from() - allocates a buffer"),
    ("vec::from_elem", fresh "vec![x; n] - allocates a buffer"),
    ("String::new", fresh "String::new() - empty string"),
    ("String::with_capacity", fresh "String::with_capacity() - allocates a buffer"),
    ("String::from", fresh "String::from() - allocates a buffer"),
    ("String::clone", fresh "String::clone() - deep copy"),
    ("Box::new", fresh "Box::new() - heap allocation"),
    ("Box::clone", fresh "Box::clone() - deep copy"),
    ("Rc::new", fresh "Rc::new() - reference-counted allocation"),
    ("Rc::clone", fresh "Rc::clone() - new reference"),
    ("Arc::new", fresh "Arc::new() - reference-counted allocation"),
    ("Arc::clone", fresh "Arc::clone() - new reference"),
    ("CString::new", fresh "CString::new() - allocates a C string"),
    ("slice::to_vec", fresh "<[T]>::to_vec() - copies into a new vector"),
    ("str::to_string", fresh "str::to_string() - copies into a new string"),
    ("str::to_owned", fresh "str::to_owned() - copies into a new string"),
    ("ToString::to_string", fresh "ToString::to_string() - new string"),
    ("mem::replace", fresh "mem::replace() - returns the previous value"),
    ("mem::take", fresh "mem::take() - returns the previous value"),
    ("ManuallyDrop::into_inner", unwrap "ManuallyDrop::into_inner() - unwraps the value")]

/-- The models of the standard library. -/
def standard : Library := releases ++ forgetting ++ reconstructions ++ accessors ++ constructors

end Dangling.Library
