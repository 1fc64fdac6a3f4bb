import DynareMatrix.Storage
import DynareMatrix.Concept
import DynareMatrix.Walk
import DynareMatrix.Elementwise
import DynareMatrix.Triangle
import DynareMatrix.Repmat
import DynareMatrix.ByVectors
import DynareMatrix.Frame
import DynareMatrix.Program
